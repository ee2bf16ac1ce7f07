import OrderedQuery.Proofs.Binding.Agreement
import OrderedQuery.Proofs.Cursor.Parallel.Listing
import OrderedQuery.Proofs.Cursor.Parallel.Verdict
import OrderedQuery.Proofs.Plan.Finite

/-!
# Parallel maps

Whatever the schedule, a parallel map delivers what its workers yield when each of them runs
on its own.  For an input without parallel maps, this is what executing the input returns.
-/

namespace OrderedQuery

namespace Worker.Follows

variable {σ : Type} {m : Machine σ} {Live : Standing σ} {store : Store} {i : Nat}
  {context : Context} {env : Env} {l : Listing} {k : Worker σ} {sent : List Message} {w : World}

theorem rows_prefix (h : Follows m Live store i context env l k sent w) :
    rowsIn sent <+: l.rows := by
  have hreports : ∀ {rows : List Row} {result : Except QueryError Unit},
      l.Reports rows result → rows <+: l.rows := by
    intro rows result hreports
    cases hreports with
    | all hl => rw [hl]
    | refused hrows => exact hrows
  cases h with
  | begin hw hactive => exact List.nil_prefix
  | opening hw => exact List.nil_prefix
  | pulling hw hl hhands =>
      rw [hl, rowsIn_map_row]
      exact List.prefix_append _ _
  | sending hw hl hhands =>
      rw [hl, rowsIn_map_row]
      exact List.prefix_append _ _
  | closing hl hlive => rw [hl, rowsIn_map_row]
  | ending hl => rw [hl, rowsIn_map_row]
  | reporting h =>
      rw [rowsIn_map_row]
      exact hreports h
  | @ended cursor rows result w h =>
      have hrows : rowsIn [report i result] = [] := by
        cases result with
        | ok u => rfl
        | error e => rfl
      rw [rowsIn_append, rowsIn_map_row, hrows, List.append_nil]
      exact hreports h
  | aborted hl => rw [hl, rowsIn_map_row]

theorem reports {rows : List Row} {result : Except QueryError Unit}
    (h : Follows m Live store i context env l k (rows.map (.row i) ++ [report i result]) w) :
    l.Reports rows result := by
  generalize hsent : rows.map (Message.row i) ++ [report i result] = sent at h
  -- rows alone hold no report
  have hnone : ∀ rows' : List Row, rows'.map (Message.row i) ≠ sent := by
    intro rows' hrows
    have hmem : report i result ∈ rows'.map (Message.row i) := by
      rw [hrows, ← hsent]
      exact List.mem_append_right _ (List.mem_singleton_self _)
    have hreport := isReport_report i result
    rw [isReport_of_mem_map_row hmem] at hreport
    cases hreport
  cases h with
  | begin hw hactive => exact absurd rfl (hnone [])
  | opening hw => exact absurd rfl (hnone [])
  | pulling hw hl hhands => exact absurd rfl (hnone _)
  | sending hw hl hhands => exact absurd rfl (hnone _)
  | closing hl hlive => exact absurd rfl (hnone _)
  | ending hl => exact absurd rfl (hnone _)
  | reporting h => exact absurd rfl (hnone _)
  | @ended cursor rows' result' w h =>
      obtain ⟨hrows, hlast⟩ := List.append_inj' hsent rfl
      have hrows' := congrArg rowsIn hrows
      rw [rowsIn_map_row, rowsIn_map_row] at hrows'
      rw [hrows', report_injective (List.head_eq_of_cons_eq hlast)]
      exact h
  | aborted hl => exact absurd rfl (hnone _)

end Worker.Follows

namespace Plan

/-! ## Inputs without parallel maps -/

section

variable {registry : Registry} {q : Plan} {config : Config} {store : Store} {env : Env}
  {rows : List Row}

/-- A worker on its own is one over the listing of its plan. -/
theorem Built.follows (hq : Built registry q) {i : Nat} {k : Worker q.State}
    {sent : List Message} (h : q.cursor.Sends config store env i k sent) :
    ∃ Live context w, Worker.Follows q.cursor Live store i context env
      (.ofRun (q.listing store config.maxRowsInMemory env)) k sent w := by
  obtain ⟨context, w, rfl, -, halone⟩ := h
  obtain ⟨Live, Idle, hconduct, hopens⟩ := hq.opens context store
  exact ⟨Live, context, w, halone.follows hconduct hopens⟩

/-- Executing such a plan returns the rows that workers find. -/
theorem Built.execute_eq_ofRun (hq : Built registry q) {ctx : Context} {w : World}
    (hconfig : ctx.config = config) (hw : Calm ctx store w) :
    (q.execute ctx env w).1 =
      (Listing.ofRun (q.listing store config.maxRowsInMemory env)).outcome := by
  obtain ⟨Live, Idle, hconduct, hopens⟩ := hq.opens ctx store
  rw [execute_eq hconduct hopens env hw, hconfig]
  cases q.listing store config.maxRowsInMemory env with
  | error e => rfl
  | ok l => rfl

theorem Built.prefix_of_mayYield (hq : Built registry q)
    (h : q.cursor.MayYield config store env rows) {ctx : Context} {w : World}
    (hconfig : ctx.config = config) (hw : Calm ctx store w) {all : List Row}
    (hall : (q.execute ctx env w).1 = .ok all) : rows <+: all := by
  obtain ⟨i, k, more, hsends⟩ := h
  obtain ⟨Live, context, w', hfollows⟩ := hq.follows hsends
  have hprefix := hfollows.rows_prefix
  rw [rowsIn_append, rowsIn_map_row] at hprefix
  rw [hq.execute_eq_ofRun hconfig hw] at hall
  obtain ⟨⟨⟩, -, rfl⟩ := Except.map_eq_ok_iff.mp hall
  exact (List.prefix_append rows _).trans hprefix

/-- A worker on its own ends as executing the plan does, unless its transaction is refused. -/
theorem Built.execute_of_yields (hq : Built registry q) {result : Except QueryError Unit}
    (h : q.cursor.Yields config store env rows result) {ctx : Context} {w : World}
    (hconfig : ctx.config = config) (hw : Calm ctx store w) :
    (q.execute ctx env w).1 = result.map (fun _ => rows) ∨
      ∃ refusal, result = .error (.store refusal) := by
  obtain ⟨i, k, hsends⟩ := h
  obtain ⟨Live, context, w', hfollows⟩ := hq.follows hsends
  have hreports := hfollows.reports
  rw [hq.execute_eq_ofRun hconfig hw]
  cases hreports with
  | all hl => exact .inl (congrArg Listing.outcome hl)
  | @refused refusal hrows => exact .inr ⟨refusal, rfl⟩

end

/-! ## Deliveries -/

section

variable {input : Plan} {p : Partitioning} {ctx : Context} {store : Store} {w : World}
  {s : ParallelCursor.State input.State} {env : Env}

/-- A drained parallel map delivers the rows of its log, which is one of workers in
company. -/
theorem map_drained (hw : w.Quiet store ctx) (henv : s.base.env = some env)
    (hopen : ((map input p).cursor.openRun ctx s w).result = .ok ()) (n : Nat) :
    let opened := (map input p).cursor.openRun ctx s w
    let drained := (map input p).cursor.drainWith ctx n opened.state opened.world
    let log := ParallelCursor.log input.cursor ctx n opened.state opened.world
    rowsIn log = drained.1 ∧
      (ParallelCursor.job input.cursor input.Holds store p ctx env w).Drained n [] log
        drained := by
  obtain ⟨r, hrun, hactive, hat, -⟩ := ParallelCursor.openRun_at
    (ParallelCursor.welcomes_true _) input.cursor_local hw henv trivial hopen
  exact hat.drainWith input.cursor_local (fun f hf => List.mem_cons_of_mem _ hf) p n nofun hrun
    hactive

theorem length_job_envs :
    (ParallelCursor.job input.cursor input.Holds store p ctx env w).envs.length =
      p.partitions.length :=
  List.length_map _

theorem job_envs_eq_some_iff {i : Nat} {e : Env} :
    (ParallelCursor.job input.cursor input.Holds store p ctx env w).envs[i]? = some e ↔
      ∃ b, p.partitions[i]? = some b ∧ env.fork.set p.position b = e := by
  rw [ParallelCursor.job, List.getElem?_map, Option.map_eq_some_iff]

/-- Whatever the schedule, the rows that a parallel map has handed out are, worker by worker,
the first rows of a run of the input alone in the environment of the worker.  When the map has
come to its end without an error, they are all rows of such runs. -/
theorem map_delivers_partitions (hw : w.Quiet store ctx) (henv : s.base.env = some env)
    (hopen : ((map input p).cursor.openRun ctx s w).result = .ok ()) (n : Nat) :
    let opened := (map input p).cursor.openRun ctx s w
    let drained := (map input p).cursor.drainWith ctx n opened.state opened.world
    let log := ParallelCursor.log input.cursor ctx n opened.state opened.world
    drained.1 = rowsIn log ∧
      drained.1.Perm ((List.range p.partitions.length).flatMap fun i => rowsFrom i log) ∧
      ∀ i b, p.partitions[i]? = some b →
        let bound := env.fork.set p.position b
        (∀ position, bound.get? position =
          if position = p.position then some b else env.get? position) ∧
        input.cursor.MayYield ctx.config store bound (rowsFrom i log) ∧
        (drained.2.result = .ok () →
          input.cursor.Yields ctx.config store bound (rowsFrom i log) (.ok ())) ∧
        ∀ registry context v, Built registry input → context.config = ctx.config →
          Calm context store v →
            (∀ rows, (input.execute context bound v).1 = .ok rows → rowsFrom i log <+: rows) ∧
            (drained.2.result = .ok () →
              (input.execute context bound v).1 = .ok (rowsFrom i log)) := by
  intro opened drained log
  obtain ⟨hrows, hdrained⟩ := map_drained hw henv hopen n
  refine ⟨hrows.symm, ?_, ?_⟩
  · have hperm := hdrained.rows_perm
    rwa [hrows, length_job_envs] at hperm
  · intro i b hb bound
    have hbound :
        (ParallelCursor.job input.cursor input.Holds store p ctx env w).envs[i]? = some bound :=
      job_envs_eq_some_iff.mpr ⟨b, hb, rfl⟩
    have hmay := hdrained.mayYield hbound
    have hyields (hok : drained.2.result = .ok ()) := hdrained.yields hok hbound
    refine ⟨fun position => env.get?_set_fork b p.position position, hmay, hyields, ?_⟩
    intro registry context v hinput hconfig hv
    refine ⟨fun rows hall => hinput.prefix_of_mayYield hmay hconfig hv hall, ?_⟩
    intro hok
    rcases hinput.execute_of_yields (hyields hok) hconfig hv with hexecute | ⟨refusal, hrefused⟩
    · exact hexecute
    · cases hrefused

/-- Two workers that add different numbers. -/
theorem map_delivers_partitions_two_values :
    let type : RowType := .ofFields [.int]
    let input : Plan := .project (.values type [⟨type, [.int 0], rfl⟩])
      ⟨[.arith .add (.field 0) (.bound 0 .int)], type⟩
    let p : Partitioning := ⟨[.value (.int 1), .value (.int 2)], 0⟩
    let made := (World.ofEngine .empty).newContext {}
    let s : ParallelCursor.State input.State :=
      ⟨⟨"MapParallel", .idle, some .root, 0⟩, .single .root true false, none⟩
    let opened := (map input p).cursor.openRun made.1 s { made.2 with schedule := [2, 2, 1] }
    let drained := (map input p).cursor.drainWith made.1 3 opened.state opened.world
    let log := ParallelCursor.log input.cursor made.1 3 opened.state opened.world
    drained.2.result = .ok () ∧
      drained.1.Perm ((List.range p.partitions.length).flatMap fun i => rowsFrom i log) ∧
      ∀ i b, p.partitions[i]? = some b →
        (input.execute made.1 (Env.root.fork.set p.position b) made.2).1 =
          .ok (rowsFrom i log) := by
  intro type input p made s opened drained log
  have hw : World.Quiet .empty made.1 { made.2 with schedule := [2, 2, 1] } :=
    ⟨⟨⟨nofun, nofun⟩, rfl, by decide⟩, rfl, nofun⟩
  have hopen : opened.result = .ok () := rfl
  have hdone : drained.2.result = .ok () := by decide +kernel
  have hinput : Built .builtins input := by
    have hvalues : ofRows type [⟨type, [.int 0], rfl⟩] =
        .ok (.values type [⟨type, [.int 0], rfl⟩]) := rfl
    have hproject : ofProject (.values type [⟨type, [.int 0], rfl⟩])
        [.arith .add (.field 0) (.bound 0 .int)] = .ok input := rfl
    exact .project (.values hvalues) hproject
  obtain ⟨-, hperm, hall⟩ :=
    @map_delivers_partitions input p made.1 .empty { made.2 with schedule := [2, 2, 1] } s
      .root hw rfl hopen 3
  refine ⟨hdone, hperm, ?_⟩
  intro i b hb
  obtain ⟨-, -, -, hplanned⟩ := hall i b hb
  have hcalm : Calm made.1 .empty made.2 := ⟨rfl, rfl, rfl⟩
  obtain ⟨-, hexecute⟩ := hplanned .builtins made.1 made.2 hinput rfl hcalm
  exact hexecute (by decide +kernel)

/-- Whatever the schedule, draining a parallel map ends. -/
theorem length_map_drainWith_lt (hw : w.Quiet store ctx) (henv : s.base.env = some env)
    (hopen : ((map input p).cursor.openRun ctx s w).result = .ok ())
    (hinput : input.ZeroFree) :
    let opened := (map input p).cursor.openRun ctx s w
    ∃ limit, ∀ n, limit < n →
      ((map input p).cursor.drainWith ctx n opened.state opened.world).1.length < n := by
  have hbounded : ∀ e ∈ p.partitions.map fun b => env.fork.set p.position b,
      ∃ limit, input.cursor.Limits ctx.config store input.Idle e limit :=
    fun e _ => limits hinput ctx.config store e
  obtain ⟨limit, hlimits⟩ := Machine.Limits.common hbounded
  have hatMost := ParallelCursor.atMost input.cursor_local input.supply
    (fun b hb => hlimits _ (List.mem_map_of_mem hb)) hw henv hopen
  refine ⟨p.partitions.length * limit, ?_⟩
  intro n hn
  exact Nat.lt_of_le_of_lt (hatMost.length_drainWith n) hn

/-- Whatever the schedule, draining a parallel map ends, and it ends without an error if and
only if every worker has reported success.  An error is the one of the first report of a
failure, and the worker that reports it can fail like that when it runs alone. -/
theorem map_reports_first_failure (hw : w.Quiet store ctx) (henv : s.base.env = some env)
    (hopen : ((map input p).cursor.openRun ctx s w).result = .ok ())
    (hpartitions : p.partitions ≠ []) (n : Nat) :
    let opened := (map input p).cursor.openRun ctx s w
    let drained := (map input p).cursor.drainWith ctx n opened.state opened.world
    let log := ParallelCursor.log input.cursor ctx n opened.state opened.world
    (input.ZeroFree → ∃ limit, ∀ n, limit < n →
        ((map input p).cursor.drainWith ctx n opened.state opened.world).1.length < n) ∧
      (drained.2.result = .ok () ↔ ∀ i < p.partitions.length, Message.finished i ∈ log) ∧
      (∀ i, Message.finished i ∈ log → ∃ b, p.partitions[i]? = some b ∧
        input.cursor.Yields ctx.config store (env.fork.set p.position b) (rowsFrom i log)
          (.ok ())) ∧
      (drained.1.length < n → ∀ e, drained.2.result = .error e →
        (∃ front i b, log = front ++ [.failed i e] ∧
          (∀ message ∈ front, message.isFailure = false) ∧ p.partitions[i]? = some b ∧
          input.cursor.Yields ctx.config store (env.fork.set p.position b) (rowsFrom i log)
            (.error e) ∧
          ∀ registry context v, Built registry input → context.config = ctx.config →
            Calm context store v →
              (input.execute context (env.fork.set p.position b) v).1 = .error e ∨
                ∃ refusal, e = .store refusal) ∨
        ∃ i b, e = .worker i .unreported ∧ p.partitions[i]? = some b ∧
          input.cursor.Panics ctx.config store (env.fork.set p.position b) (rowsFrom i log)) ∧
      (drained.1.length < n →
        ∀ later, (map input p).cursor.Later drained.2.state later → ∀ context v row,
          ((map input p).cursor.next context later v).result ≠ .ok (some row)) := by
  intro opened drained log
  obtain ⟨hrows, hdrained⟩ := map_drained hw henv hopen n
  refine ⟨length_map_drainWith_lt hw henv hopen, ?_, ?_, ?_, ?_⟩
  · rw [← length_job_envs]
    refine hdrained.result_eq_ok_iff ?_
    rwa [← List.length_pos_iff, length_job_envs, List.length_pos_iff]
  · intro i hmem
    have hreport : Worker.report i (.ok ()) ∈ log := hmem
    obtain ⟨r, w', hat⟩ := hdrained.at
    obtain ⟨e, he, hyields⟩ := hat.company.yields hreport
    obtain ⟨b, hb, rfl⟩ := job_envs_eq_some_iff.mp he
    exact ⟨b, hb, hyields⟩
  · intro hless e herror
    rcases hdrained.error_cases hless herror with
      ⟨front, i, env', hlog, hunfailed, henv', hyields⟩ | ⟨i, env', he, henv', hpanics⟩
    · obtain ⟨b, hb, rfl⟩ := job_envs_eq_some_iff.mp henv'
      refine .inl ⟨front, i, b, hlog, hunfailed, hb, hyields, ?_⟩
      intro registry context v hinput hconfig hv
      refine (hinput.execute_of_yields hyields hconfig hv).imp_right ?_
      rintro ⟨refusal, hrefused⟩
      exact ⟨refusal, Except.error.inj hrefused⟩
    · obtain ⟨b, hb, rfl⟩ := job_envs_eq_some_iff.mp henv'
      exact .inr ⟨i, b, he, hb, hpanics⟩
  · intro hless later hlater context v
    have hrun := ParallelCursor.later_run_eq_none (hdrained.run_eq_none hless) hlater
    exact (ParallelCursor.next_of_run_eq_none hrun context v).1

/-- The engine refuses the transaction of the second worker. -/
theorem map_reports_first_failure_refused :
    let type : RowType := .ofFields [.int]
    let input : Plan := .project (.values type [⟨type, [.int 0], rfl⟩])
      ⟨[.arith .add (.field 0) (.bound 0 .int)], type⟩
    let p : Partitioning := ⟨[.value (.int 1), .value (.int 2)], 0⟩
    let made := (World.ofEngine .empty).newContext {}
    let s : ParallelCursor.State input.State :=
      ⟨⟨"MapParallel", .idle, some .root, 0⟩, .single .root true false, none⟩
    let opened := (map input p).cursor.openRun made.1 s
      { made.2 with schedule := [1, 2, 1], refusals := [false, true] }
    let log := ParallelCursor.log input.cursor made.1 3 opened.state opened.world
    ∃ i b, p.partitions[i]? = some b ∧
      input.cursor.Yields made.1.config .empty (Env.root.fork.set p.position b)
        (rowsFrom i log) (.error (.store .refused)) := by
  intro type input p made s opened log
  have hw : World.Quiet .empty made.1
      { made.2 with schedule := [1, 2, 1], refusals := [false, true] } :=
    ⟨⟨⟨nofun, nofun⟩, rfl, by decide⟩, rfl, nofun⟩
  have hopen : opened.result = .ok () := rfl
  obtain ⟨-, -, -, herror, -⟩ :=
    @map_reports_first_failure input p made.1 .empty
      { made.2 with schedule := [1, 2, 1], refusals := [false, true] } s .root hw rfl hopen
      nofun 3
  rcases herror (by decide +kernel) (.store .refused) (by decide +kernel) with
    ⟨front, i, b, -, -, hb, hyields, -⟩ | ⟨i, b, he, -⟩
  · exact ⟨i, b, hb, hyields⟩
  · cases he

end
end Plan
end OrderedQuery
