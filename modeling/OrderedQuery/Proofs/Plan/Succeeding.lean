import OrderedQuery.Proofs.Cursor.Parallel.Grants
import OrderedQuery.Proofs.Plan.ParallelMap

/-!
# Parallel maps that succeed

If the input has a meaning in every partition, so that no evaluation fails in any of them, and the
engine refuses no transaction, a parallel map that has been opened ends without an error and
delivers these meanings, whatever the schedule.  It opens if the system starts every thread.
-/

namespace OrderedQuery
namespace Plan

open World (Lapse)

variable {registry : Registry} {input : Plan} {p : Partitioning} {ctx : Context} {store : Store}
  {w : World} {s : ParallelCursor.State input.State} {env : Env}

/-- Without parallel maps, a cursor passes time and counts rows, and that is all. -/
theorem Built.moves {E : World → World → Prop} [Lapse E] {q : Plan} (hq : Built registry q) :
    q.cursor.Moves E := by
  induction hq with
  | values hbuild =>
      obtain ⟨rfl, -⟩ := ofRows_eq_ok hbuild
      exact ValuesCursor.evolving _
  | scan htable hname hbuild =>
      obtain ⟨s, -, rfl⟩ := ofScan_eq_ok hbuild
      exact IndexScanCursor.evolving s
  | select hinput hbuild ih =>
      obtain rfl := ofSelect_eq_ok hbuild
      exact SelectCursor.evolving ih _
  | project hinput hbuild ih =>
      obtain ⟨q, rfl⟩ := ofProject_eq_ok hbuild
      exact ProjectCursor.evolving ih q
  | aggregate hinput hbuild ih =>
      obtain ⟨g, rfl⟩ := ofAggregate_eq_ok hbuild
      exact AggregateCursor.evolving ih g
  | sort hinput hbuild ih =>
      obtain ⟨rfl, -⟩ := ofSort_eq_ok hbuild
      exact SortCursor.evolving ih _

/-- The workers of a map do not fail if the input has a meaning in every partition. -/
theorem Built.succeeds (hinput : Built registry input)
    (hparts : ∀ b ∈ p.partitions, ∃ rows,
      input.Denotes store ctx.config.maxRowsInMemory (env.fork.set p.position b) rows) :
    (ParallelCursor.job input.cursor input.Holds store p ctx env w).Succeeds where
  machine_local := input.cursor_local
  evolving := hinput.moves
  passes := hinput.moves
  ends := by
    intro e he i context k sent v hconfig halone result hphase
    obtain ⟨b, hb, rfl⟩ := List.mem_map.mp he
    obtain ⟨rows, hrows⟩ := hparts b hb
    have hlisting := listing_eq_ok_iff_denotes.mpr hrows
    obtain ⟨Live, Idle, hconduct, hopens⟩ := hinput.opens context store
    have hfollows := halone.follows hconduct hopens
    have hsame : context.config = ctx.config := hconfig
    rw [hsame, hlisting] at hfollows
    obtain ⟨context', cursor, phase⟩ := k
    obtain rfl : phase = .ending result := hphase
    cases hfollows with
    | ending hl => exact (Listing.mk.inj hl).2.symm

theorem Built.zeroFree {q : Plan} (hq : Built registry q) : q.ZeroFree := by
  induction hq with
  | values hbuild =>
      obtain ⟨rfl, -⟩ := ofRows_eq_ok hbuild
      trivial
  | scan htable hname hbuild =>
      obtain ⟨s, hs, rfl⟩ := ofScan_eq_ok hbuild
      obtain ⟨rfl, -⟩ := IndexScan.build_eq_ok hs
      exact ⟨htable, hname⟩
  | select hinput hbuild ih =>
      obtain rfl := ofSelect_eq_ok hbuild
      exact ih
  | project hinput hbuild ih =>
      obtain ⟨q, rfl⟩ := ofProject_eq_ok hbuild
      exact ih
  | aggregate hinput hbuild ih =>
      obtain ⟨g, rfl⟩ := ofAggregate_eq_ok hbuild
      exact ih
  | sort hinput hbuild ih =>
      obtain ⟨rfl, -⟩ := ofSort_eq_ok hbuild
      exact ih

/-- What a worker on its own reports about a plan with a meaning: all of its rows, unless its
transaction is refused. -/
theorem Built.reports_of_yields {q : Plan} (hq : Built registry q) {config : Config}
    {rows rows' : List Row} {result : Except QueryError Unit}
    (hrows : q.Denotes store config.maxRowsInMemory env rows)
    (h : q.cursor.Yields config store env rows' result) :
    Listing.Reports ⟨rows, .ok ()⟩ rows' result := by
  obtain ⟨i, k, hsends⟩ := h
  obtain ⟨Live, context, v, hfollows⟩ := hq.follows hsends
  rw [listing_eq_ok_iff_denotes.mpr hrows] at hfollows
  exact hfollows.reports

/-- Such a worker is not ended from within. -/
theorem Built.not_panics {q : Plan} (hq : Built registry q) {config : Config}
    {rows rows' : List Row} (hrows : q.Denotes store config.maxRowsInMemory env rows) :
    ¬ q.cursor.Panics config store env rows' := by
  rintro ⟨i, k, hphase, hsends⟩
  obtain ⟨Live, context, v, hfollows⟩ := hq.follows hsends
  rw [listing_eq_ok_iff_denotes.mpr hrows] at hfollows
  generalize rows'.map (Message.row i) = sent at hfollows
  obtain ⟨context', cursor, phase⟩ := k
  obtain rfl : phase = .aborted := hphase
  cases hfollows with
  | aborted hl => cases hl

theorem checkMode_eq_ok (hmode : ctx.config.mode = .readOnly) :
    ParallelCursor.checkMode p ctx w = .ok () := by
  rw [ParallelCursor.checkMode, hmode]

/-- A map whose workers only read opens if the system starts every thread. -/
theorem map_opens (hw : w.Quiet store ctx) (henv : s.base.env = some env)
    (hidle : s.base.state = .idle) (hmode : ctx.config.mode = .readOnly)
    (hspawns : ∀ report, some report ∉ w.spawns) :
    ((map input p).cursor.openRun ctx s w).result = .ok () :=
  ParallelCursor.openRun_eq_ok input.cursor_local input.cursor_evolving hw henv hidle
    (checkMode_eq_ok hmode) hspawns

/-- A map that has been drained to its end had been opened. -/
theorem map_opened_of_drainWith (hidle : s.base.state = .idle) {fuel : Nat} :
    let opened := (map input p).cursor.openRun ctx s w
    ((map input p).cursor.drainWith ctx fuel opened.state opened.world).2.result = .ok () →
      opened.result = .ok () := by
  intro opened hdrained
  exact ParallelCursor.openRun_eq_ok_of_active hidle
    (ParallelCursor.active_of_drainWith hdrained)

/-- If the input has a meaning in every partition and the engine refuses no transaction, draining
a map ends without an error. -/
theorem map_succeeds (hinput : Built registry input) (hw : w.Quiet store ctx)
    (henv : s.base.env = some env)
    (hopen : ((map input p).cursor.openRun ctx s w).result = .ok ()) (hrefusals : w.refusals = [])
    (hparts : ∀ b ∈ p.partitions, ∃ rows,
      input.Denotes store ctx.config.maxRowsInMemory (env.fork.set p.position b) rows) :
    let opened := (map input p).cursor.openRun ctx s w
    ∃ limit, ∀ n, limit < n →
      ((map input p).cursor.drainWith ctx n opened.state opened.world).2.result = .ok () := by
  intro opened
  have hsucceeds : (ParallelCursor.job input.cursor input.Holds store p ctx env w).Succeeds :=
    hinput.succeeds hparts
  have hbegins : World.refusals { w with signals := (w.signals.newChild ctx.token).2 } = [] :=
    hrefusals
  obtain ⟨r, hrun, -, hat, hsmooth⟩ := ParallelCursor.openRun_at hsucceeds.welcomes
    input.cursor_local hw henv (Job.smooth_start hbegins _ _ _) hopen
  have hstart : ParallelCursor.Smooth
      (ParallelCursor.job input.cursor input.Holds store p ctx env w) opened.state
      opened.world := by
    intro r' hrun'
    obtain rfl := Option.some.inj (hrun.symm.trans hrun')
    exact ⟨[], hat.company, hsmooth⟩
  obtain ⟨limit, hlimit⟩ := length_map_drainWith_lt hw henv hopen hinput.zeroFree
  refine ⟨limit, ?_⟩
  intro n hn
  obtain ⟨-, hdrained⟩ := map_drained hw henv hopen n
  have hgranted := ParallelCursor.granted_drainWith hsucceeds
    (fun f hf => List.mem_cons_of_mem _ hf) p n hstart
  cases hresult : ((map input p).cursor.drainWith ctx n opened.state opened.world).2.result with
  | ok u => rfl
  | error e =>
      exfalso
      rcases hdrained.error_cases (hlimit n hn) hresult with
        ⟨front, i, env', -, -, henv', hyields⟩ | ⟨i, env', -, henv', hpanics⟩
      · obtain ⟨b, hb, rfl⟩ := job_envs_eq_some_iff.mp henv'
        obtain ⟨rows, hmeans⟩ := hparts b (List.mem_of_getElem? hb)
        cases hinput.reports_of_yields hmeans hyields with
        | all hl => cases hl
        | @refused refusal hprefix => exact hgranted.result refusal hresult
      · obtain ⟨b, hb, rfl⟩ := job_envs_eq_some_iff.mp henv'
        obtain ⟨rows, hmeans⟩ := hparts b (List.mem_of_getElem? hb)
        exact hinput.not_panics hmeans hpanics

/-- When draining a map has ended without an error, every worker has sent what the input means in
its partition. -/
theorem map_delivers_meanings (hinput : Built registry input) (hw : w.Quiet store ctx)
    (henv : s.base.env = some env)
    (hopen : ((map input p).cursor.openRun ctx s w).result = .ok ()) (n : Nat) :
    let opened := (map input p).cursor.openRun ctx s w
    let drained := (map input p).cursor.drainWith ctx n opened.state opened.world
    let log := ParallelCursor.log input.cursor ctx n opened.state opened.world
    drained.2.result = .ok () →
      drained.1.Perm ((List.range p.partitions.length).flatMap fun i => rowsFrom i log) ∧
        ∀ i b rows, p.partitions[i]? = some b →
          input.Denotes store ctx.config.maxRowsInMemory (env.fork.set p.position b) rows →
            rowsFrom i log = rows := by
  intro opened drained log hok
  obtain ⟨hrows, hdrained⟩ := map_drained hw henv hopen n
  constructor
  · have hperm := hdrained.rows_perm
    rwa [hrows, length_job_envs] at hperm
  · intro i b rows hb hmeans
    have hyields := hdrained.yields hok (job_envs_eq_some_iff.mpr ⟨b, hb, rfl⟩)
    cases hinput.reports_of_yields hmeans hyields with
    | all hl => exact (Listing.mk.inj hl).1.symm

end Plan
end OrderedQuery
