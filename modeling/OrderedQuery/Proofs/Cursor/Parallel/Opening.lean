import OrderedQuery.Proofs.Cursor.Evolution
import OrderedQuery.Proofs.Cursor.Parallel.Draining
import OrderedQuery.Proofs.Cursor.Protocol

/-!
# Opening a parallel map

Opening starts a worker for every partition, while those that have been started are at work
already.  As long as nobody cancels the context, only the system can keep this from coming to its
end, by not starting a thread.
-/

namespace OrderedQuery

/-- The store is `store`, nobody is about to change it or to cancel the context. -/
structure World.Quiet (store : Store) (ctx : Context) (w : World) : Prop where
  steady : w.Steady ctx.token
  committed : w.engine.committed = store
  writers : ctx.config.mode = .readWrite → w.engine.hasWriter = false

namespace ParallelCursor

variable {σ : Type} {m : Machine σ} {Owns : Ownership σ} {store : Store} {ctx : Context}
  {env : Env} {p : Partitioning} {s : State σ} {w : World}

/-- What is settled when a run is about to be opened. -/
def job (m : Machine σ) (Owns : Ownership σ) (store : Store) (p : Partitioning) (ctx : Context)
    (env : Env) (w : World) : Job σ :=
  ⟨m, Owns, store, ctx.config, (w.signals.newChild ctx.token).1,
    p.partitions.map fun b => env.fork.set p.position b⟩

/-- What a new worker and the steps of those that are in company already leave true. -/
structure Welcomes (j : Job σ) (I : Run σ → World → Prop) : Prop where
  spawn : ∀ {r w}, I r w → I r w.spawn.2
  hire : ∀ {r w} (context : Context) (env : Env), I r w →
    I { r with workers := r.workers ++ [Worker.start j.machine context env] }
      (World.recordStarted { w with engine := w.engine.derive.2 })
  interleave : ∀ {r w}, j.Company [] r w → I r w →
    I (r.interleave j.machine w).1 (r.interleave j.machine w).2

theorem welcomes_true (j : Job σ) : Welcomes j fun _ _ => True where
  spawn _ := trivial
  hire _ _ _ := trivial
  interleave _ _ := trivial

/-- A system that starts every thread goes on doing so. -/
theorem welcomes_unreported {j : Job σ} (hm : j.machine.Evolving) :
    Welcomes j fun _ w => ∀ report, some report ∉ w.spawns where
  spawn h report hmem := h report (World.Change.spawn.spawns.subset hmem)
  hire _ _ h := h
  interleave {r w} _ h report hmem :=
    h report ((Run.interleave_evolves hm r w).spawns.subset hmem)

/-- How it ends when `count` workers are to join a run. -/
inductive Staffed (j : Job σ) (I : Run σ → World → Prop) (r : Run σ) (count : Nat) :
    Except QueryError (Run σ) × World → Prop where
  /-- They are in company. -/
  | all {r' : Run σ} {w' : World} (hc : j.Company [] r' w') (hi : I r' w')
      (hlive : r'.live = r.live) (hreported : r'.reported = r.reported)
      (hworkers : r'.workers.length = r.workers.length + count) :
      Staffed j I r count (.ok r', w')
  /-- One of them is not started by the system. -/
  | short {r' : Run σ} {w' v : World} {report : String} (e : QueryError) (hi : I r' w')
      (hreport : some report ∈ w'.spawns) : Staffed j I r count (.error e, v)

/-- One worker more has joined the run first. -/
theorem Staffed.after {j : Job σ} {I : Run σ → World → Prop} {r r' : Run σ} {count : Nat}
    {x : Except QueryError (Run σ) × World} (h : Staffed j I r' count x) (hlive : r'.live = r.live)
    (hreported : r'.reported = r.reported) (hworkers : r'.workers.length = r.workers.length + 1) :
    Staffed j I r (count + 1) x := by
  cases h with
  | short e hi hreport => exact .short e hi hreport
  | all hc hi hlive' hreported' hworkers' =>
      refine .all hc hi (hlive'.trans hlive) (hreported'.trans hreported) ?_
      rw [hworkers', hworkers, Nat.add_assoc, Nat.add_comm 1 count]

/-- If workers write, then there is one more at most, and only if there is none yet and nobody
else writes. -/
def Unrivalled (j : Job σ) (count : Nat) (r : Run σ) (w : World) : Prop :=
  j.config.mode = .readWrite →
    count = 0 ∨ count ≤ 1 ∧ r.workers = [] ∧ w.engine.hasWriter = false

theorem Unrivalled.first {j : Job σ} {count : Nat} {r : Run σ} (h : Unrivalled j (count + 1) r w) :
    j.config.mode = .readWrite → r.workers = [] ∧ w.engine.hasWriter = false := by
  intro hmode
  rcases h hmode with hnone | ⟨-, hfirst⟩
  · cases hnone
  · exact hfirst

theorem Unrivalled.rest {j : Job σ} {count : Nat} {r : Run σ} (h : Unrivalled j (count + 1) r w)
    (r' : Run σ) (w' : World) : Unrivalled j count r' w' := by
  intro hmode
  rcases h hmode with hnone | ⟨hsingle, -⟩
  · cases hnone
  · exact .inl (Nat.le_zero.mp (Nat.le_of_succ_le_succ hsingle))

/-- Workers are started one after the other. -/
theorem startWorkers_staffed {j : Job σ} {I : Run σ → World → Prop} (hI : Welcomes j I)
    (hm : j.machine.Local j.Owns)
    (hconfig : ctx.config = j.config) (hwatch : ∀ f ∈ ctx.token.flags, f ∈ j.token.flags)
    {bindings : List Binding} {r : Run σ} (hc : j.Company [] r w) (hi : I r w)
    (henvs : ∀ n b, bindings[n]? = some b →
      j.envs[r.workers.length + n]? = some (env.fork.set p.position b))
    (hwriters : Unrivalled j bindings.length r w) :
    Staffed j I r bindings.length (startWorkers j.machine ctx env p.position bindings r w) := by
  induction bindings generalizing r w with
  | nil => exact .all hc hi rfl rfl rfl
  | cons b rest ih =>
      have hengine := w.spawn_engine
      have hc₁ := hc.spawn
      have hi₁ := hI.spawn hi
      rw [startWorkers, World.hire_eq (hc.steady.check hwatch), hconfig]
      cases hspawn : w.spawn with
      | mk report w₁ =>
          rw [hspawn] at hengine hc₁ hi₁
          cases report with
          | some report => exact .short _ hi (World.mem_spawns_of_spawn hspawn)
          | none =>
              have hfirst := hwriters.first
              rw [← hengine] at hfirst
              have hc₂ := hc₁.hire hm (henvs 0 b rfl) hfirst
              rw [← hc.token] at hc₂
              have hi₃ := hI.interleave hc₂ (hI.hire _ _ hi₁)
              obtain ⟨hc₃, hcontinues⟩ := hc₂.interleave hm
              dsimp only
              generalize Run.interleave j.machine _ _ = x at hc₃ hi₃ hcontinues ⊢
              obtain ⟨r₃, w₃⟩ := x
              have hlive : r₃.live = r.live := hcontinues.live
              have hreported : r₃.reported = r.reported := hcontinues.reported
              have hlength : r₃.workers.length = r.workers.length + 1 := by
                rw [hcontinues.workers, List.length_append, List.length_singleton]
              have henvs₃ : ∀ n b, rest[n]? = some b →
                  j.envs[r₃.workers.length + n]? = some (env.fork.set p.position b) := by
                intro n b' hb'
                rw [hlength, Nat.add_assoc, Nat.add_comm 1 n]
                exact henvs (n + 1) b' hb'
              exact (ih hc₃ hi₃ henvs₃ (hwriters.rest r₃ w₃)).after hlive hreported hlength

theorem mode_of_checkMode (h : checkMode p ctx w = .ok ()) :
    ctx.config.mode = .readWrite → p.partitions.length ≤ 1 := by
  intro hmode
  rw [checkMode, hmode] at h
  dsimp only at h
  split at h
  · cases h
  · omega

theorem base_of_beginOpen {b b' : CursorBase} (h : b.beginOpen = .ok b') :
    b'.state = .active ∧ b'.env = b.env := by
  rw [CursorBase.beginOpen] at h
  split at h
  · obtain rfl := Except.ok.inj h
    exact ⟨rfl, rfl⟩
  · cases h

/-- The token of a run stands below that of its reader. -/
theorem steady_newChild (hw : w.Steady ctx.token) :
    World.Steady (w.signals.newChild ctx.token).1
      { w with signals := (w.signals.newChild ctx.token).2 } where
  sound := ⟨hw.sound.sessions, fun f hf => Nat.lt_succ_of_lt (hw.sound.flags f hf)⟩
  silent := hw.silent
  token f hf := by
    rcases List.mem_cons.mp hf with rfl | hf
    · exact ⟨Nat.lt_succ_self _, fun hraised => Nat.lt_irrefl _ (hw.sound.flags _ hraised)⟩
    · exact ⟨Nat.lt_succ_of_lt (hw.token f hf).1, (hw.token f hf).2⟩

/-- A run that is not refused is opened, with a worker for every partition, or the system does not
start one of them. -/
theorem openRun_staffed {I : Run σ → World → Prop}
    (hI : Welcomes (job m Owns store p ctx env w) I) (hm : m.Local Owns) (hw : w.Quiet store ctx)
    (henv : s.base.env = some env) {base : CursorBase} (hbegin : s.base.beginOpen = .ok base)
    (hmode : checkMode p ctx w = .ok ())
    (hstart : I (.start (w.signals.newChild ctx.token).1 ctx.config.channelCapacity
      p.partitions.length) { w with signals := (w.signals.newChild ctx.token).2 }) :
    (∃ r w', openRun m p ctx s w = ⟨.ok (), { s with base, run := some r }, w'⟩ ∧
      (job m Owns store p ctx env w).At [] r w' ∧ I r w') ∨
    (∃ e w', openRun m p ctx s w = ⟨.error e, { s with base := base.finish }, w'⟩) ∧
      ∃ r w' report, I r w' ∧ some report ∈ w'.spawns := by
  have henv' : base.currentEnv = .ok env :=
    CursorBase.currentEnv_eq_ok ((base_of_beginOpen hbegin).2.trans henv)
  have hc := Job.company_start (j := job m Owns store p ctx env w)
    (steady_newChild hw.steady) hw.committed ctx.config.channelCapacity p.partitions.length
  have henvs : ∀ n b, p.partitions[n]? = some b →
      (job m Owns store p ctx env w).envs[0 + n]? = some (env.fork.set p.position b) := by
    intro n b hb
    rw [Nat.zero_add, job, List.getElem?_map, hb]
    rfl
  have hconfig : ctx.config = (job m Owns store p ctx env w).config := rfl
  have hwatch : ∀ f ∈ ctx.token.flags, f ∈ (job m Owns store p ctx env w).token.flags :=
    fun f hf => List.mem_cons_of_mem _ hf
  have hstaffed : Staffed (job m Owns store p ctx env w) I
      (.start (w.signals.newChild ctx.token).1 ctx.config.channelCapacity p.partitions.length)
      p.partitions.length (startRun m p ctx base w) := by
    simp only [startRun, hmode, henv']
    exact startWorkers_staffed hI hm hconfig hwatch hc hstart henvs
      fun hmode' => .inr ⟨mode_of_checkMode hmode hmode', rfl, hw.writers hmode'⟩
  simp only [openRun, hbegin]
  generalize startRun m p ctx base w = x at hstaffed
  cases hstaffed with
  | all hc' hi' hlive hreported hworkers =>
      refine .inl ⟨_, _, rfl, ⟨hc', hreported, ?_, ?_⟩, hi'⟩
      · rw [hlive, job, List.length_map]
        rfl
      · rw [hworkers, job, List.length_map]
        exact Nat.zero_add _
  | short e hi' hreport => exact .inr ⟨⟨e, _, rfl⟩, _, _, _, hi', hreport⟩

/-- The workers of an open run are in company. -/
theorem openRun_at {I : Run σ → World → Prop}
    (hI : Welcomes (job m Owns store p ctx env w) I) (hm : m.Local Owns) (hw : w.Quiet store ctx)
    (henv : s.base.env = some env)
    (hstart : I (.start (w.signals.newChild ctx.token).1 ctx.config.channelCapacity
      p.partitions.length) { w with signals := (w.signals.newChild ctx.token).2 })
    (hopen : (openRun m p ctx s w).result = .ok ()) :
    ∃ r, (openRun m p ctx s w).state.run = some r ∧
      (openRun m p ctx s w).state.base.state = .active ∧
      (job m Owns store p ctx env w).At [] r (openRun m p ctx s w).world ∧
      I r (openRun m p ctx s w).world := by
  cases hbegin : s.base.beginOpen with
  | error e =>
      rw [openRun, hbegin] at hopen
      cases hopen
  | ok base =>
      cases hmode : checkMode p ctx w with
      | error e =>
          simp only [openRun, hbegin, startRun, hmode] at hopen
          cases hopen
      | ok u =>
          rcases openRun_staffed hI hm hw henv hbegin hmode hstart with
            ⟨r, w', hopened, hat, hi⟩ | ⟨⟨e, w', hopened⟩, -⟩
          · rw [hopened]
            exact ⟨r, rfl, (base_of_beginOpen hbegin).1, hat, hi⟩
          · rw [hopened] at hopen
            cases hopen

/-- If the system starts every thread, a run that is not refused is opened. -/
theorem openRun_eq_ok (hm : m.Local Owns) (hevolving : m.Evolving) (hw : w.Quiet store ctx)
    (henv : s.base.env = some env) (hidle : s.base.state = .idle)
    (hmode : checkMode p ctx w = .ok ()) (hspawns : ∀ report, some report ∉ w.spawns) :
    (openRun m p ctx s w).result = .ok () := by
  have hI := welcomes_unreported (j := job m Owns store p ctx env w) hevolving
  rcases openRun_staffed hI hm hw henv (CursorBase.beginOpen_eq_ok hidle) hmode hspawns with
    ⟨r, w', hopened, -⟩ | ⟨-, r, w', report, hunreported, hreport⟩
  · rw [hopened]
  · exact absurd hreport (hunreported report)

/-- A run that could not be opened does not leave its cursor active. -/
theorem openRun_eq_ok_of_active (hidle : s.base.state = .idle)
    (hactive : (openRun m p ctx s w).state.base.state = .active) :
    (openRun m p ctx s w).result = .ok () := by
  have hbegin := CursorBase.beginOpen_eq_ok hidle
  simp only [openRun, hbegin] at hactive ⊢
  generalize startRun m p ctx _ w = x at hactive ⊢
  obtain ⟨_ | r, w'⟩ := x
  · rw [CursorBase.finish_state rfl] at hactive
    cases hactive
  · rfl

/-- Only an active cursor hands out rows to their end. -/
theorem active_of_drainWith {fuel : Nat}
    (hdrained : ((machine m p).drainWith ctx fuel s w).2.result = .ok ()) :
    s.base.state = .active := by
  by_contra hs
  cases fuel with
  | zero => cases hdrained
  | succ fuel =>
      have hnext : (machine m p).next ctx s w = ⟨.error (s.base.violation "next"), s, w⟩ := by
        simp only [machine, next, CursorBase.checkNext_eq_error hs]
      simp only [Machine.drainWith, hnext] at hdrained
      cases hdrained

end ParallelCursor
end OrderedQuery
