import Mathlib.Algebra.Order.BigOperators.Group.List
import OrderedQuery.Proofs.Cursor.Limits
import OrderedQuery.Proofs.Cursor.Parallel.Opening

/-!
# Parallel maps are finite

A worker sends no more rows than its cursor hands out, and a parallel map hands out no more
rows than its workers send.
-/

namespace OrderedQuery

/-- Nothing disturbs a context that is inside a transaction and sees `store`. -/
structure World.Serves (store : Store) (ctx : Context) (w : World) : Prop where
  steady : w.Steady ctx.token
  committed : w.engine.committed = store
  view : w.engine.view ctx.session = store
  inside : w.engine.inTransaction ctx.session = true

/-- A run that is opened in an environment hands out `limit` rows at most. -/
def Machine.Limits {σ : Type} (m : Machine σ) (config : Config) (store : Store)
    (Idle : Standing σ) (env : Env) (limit : Nat) : Prop :=
  ∀ ⦃ctx⦄, ctx.config = config → ∀ ⦃source s⦄, Idle source (some env) s → ∀ ⦃w⦄,
    w.Serves store ctx → (m.openRun ctx s w).result = .ok () →
      m.AtMost ctx limit (m.openRun ctx s w).state (m.openRun ctx s w).world

namespace World

variable {store : Store} {ctx : Context} {token : Token} {w w' : World}

theorem Deserted.resumes (hw : w.Deserted store ctx) (h : w.Resumes w') :
    w'.Deserted store ctx where
  committed := h.committed.trans hw.committed
  active := h.active.trans hw.active
  raised := h.raised.trans hw.raised
  silent := h.silent
  session := Nat.lt_of_lt_of_le hw.session h.sessions
  token f hf := Nat.lt_of_lt_of_le (hw.token f hf) h.flags

theorem Sound.resumes (hw : w.Sound) (h : w.Resumes w') : w'.Sound where
  sessions a ha := by
    rw [h.active] at ha
    exact Nat.lt_of_lt_of_le (hw.sessions a ha) h.sessions
  flags f hf := by
    rw [h.raised] at hf
    exact Nat.lt_of_lt_of_le (hw.flags f hf) h.flags

theorem Steady.resumes (hw : w.Steady token) (h : w.Resumes w') : w'.Steady token where
  sound := hw.sound.resumes h
  silent := h.silent
  token f hf := by
    rw [h.raised]
    exact ⟨Nat.lt_of_lt_of_le (hw.token f hf).1 h.flags, (hw.token f hf).2⟩

theorem Serves.resumes (hw : w.Serves store ctx) (h : w.Resumes w') : w'.Serves store ctx where
  steady := hw.steady.resumes h
  committed := h.committed.trans hw.committed
  view := (Rests.view_eq (.inr h) ctx.session).trans hw.view
  inside := by
    rw [Engine.inTransaction, Engine.transaction?, h.active]
    exact hw.inside

/-- The transaction of a worker sees the committed store. -/
theorem Deserted.beginWork (hw : w.Deserted store ctx) :
    (∃ w', w.beginWork ctx = (.ok (), w') ∧ w'.Serves store ctx) ∨
      ∃ e w', w.beginWork ctx = (.error (.store e), w') := by
  rcases beginWork_of_active_eq_nil hw.active ctx with ⟨refusals, hbegun⟩ | hrefused
  · refine .inl ⟨_, hbegun, ⟨⟨?_, ?_⟩, hw.silent, ?_⟩, hw.committed, ?_, ?_⟩
    · intro a ha
      rw [List.mem_singleton.mp ha]
      exact hw.session
    · intro f hf
      rw [hw.raised] at hf
      cases hf
    · intro f hf
      refine ⟨hw.token f hf, ?_⟩
      dsimp only
      rw [hw.raised]
      exact List.not_mem_nil
    · rw [Engine.view, Engine.transaction?]
      simpa using hw.committed
    · rw [Engine.inTransaction, Engine.transaction?]
      simp
  · exact .inr hrefused

end World

/-! ## Workers -/

/-- All that there is. -/
def Holdings.everything : Holdings :=
  ⟨fun _ => true, fun _ => true, fun _ => false, true⟩

namespace Worker

open Holdings (everything)

variable {σ : Type} {m : Machine σ} {Owns : Ownership σ} {Idle : Standing σ} {store : Store}
  {i : Nat} {context : Context} {env : Env} {limit : Nat} {k : Worker σ}
  {sent : List Message} {w w' : World}

/-- A worker on its own may use everything. -/
theorem Alone.owned (hm : m.Local Owns) (h : Alone m store i context env k sent w) :
    everything.Fits w ∧ k.Owned Owns (everything.upto w) := by
  have hfits : ∀ {w : World}, w.Sound → w.signals.alarm = none → everything.Fits w :=
    fun hsound hsilent => ⟨hsound, hsilent, fun _ _ => rfl, fun _ _ => rfl, nofun, nofun⟩
  induction h with
  | start hw =>
      refine ⟨hfits ⟨?_, ?_⟩ hw.silent, ⟨?_, ?_, .inr rfl⟩, hm.fresh _ _⟩
      · rw [hw.active]
        exact nofun
      · rw [hw.raised]
        exact nofun
      · exact decide_eq_true hw.session
      · intro f hf
        exact .inl (decide_eq_true (hw.token f hf))
  | wait h hw ih =>
      exact ⟨hfits (ih.1.sound.resumes hw) hw.silent,
        ih.2.mono hm (everything.upto_mono hw.sessions hw.flags)⟩
  | step h ih =>
      obtain ⟨-, hkeeps, howned⟩ := advance_within hm ih.1 ih.2
      exact ⟨hkeeps.fits, howned⟩

/-- The worker asks for no more rows, and has none in hand. -/
def isWinding (k : Worker σ) : Bool :=
  match k.phase with
  | .begin | .opening | .pulling | .sending _ => false
  | _ => true

/-- Where a worker stands that sends `limit` rows at most. -/
inductive Spends (m : Machine σ) (store : Store) (context : Context) (env : Env)
    (limit : Nat) : Worker σ → List Message → World → Prop
  | begin {w : World} (hw : w.Deserted store context) :
      Spends m store context env limit ⟨context, m.fresh (.ofEnv env), .begin⟩ [] w
  | opening {w : World} (hw : w.Serves store context) :
      Spends m store context env limit ⟨context, m.fresh (.ofEnv env), .opening⟩ [] w
  | pulling {cursor : σ} {sent : List Message} {n : Nat} {w : World}
      (h : m.AtMost context n cursor w) (hle : (rowsIn sent).length + n ≤ limit) :
      Spends m store context env limit ⟨context, cursor, .pulling⟩ sent w
  | sending {cursor : σ} {sent : List Message} {row : Row} {n : Nat} {w : World}
      (h : m.AtMost context n cursor w) (hle : (rowsIn sent).length + n < limit) :
      Spends m store context env limit ⟨context, cursor, .sending row⟩ sent w
  | winding {k : Worker σ} {sent : List Message} {w : World} (h : k.isWinding = true)
      (hle : (rowsIn sent).length ≤ limit) : Spends m store context env limit k sent w

namespace Spends

theorem length_le (h : Spends m store context env limit k sent w) :
    (rowsIn sent).length ≤ limit := by
  cases h with
  | begin hw => exact Nat.zero_le limit
  | opening hw => exact Nat.zero_le limit
  | pulling h hle => exact Nat.le_trans (Nat.le_add_right _ _) hle
  | sending h hle => exact Nat.le_trans (Nat.le_add_right _ _) (Nat.le_of_lt hle)
  | winding h hle => exact hle

theorem resumes (h : Spends m store context env limit k sent w) (hw : w.Resumes w') :
    Spends m store context env limit k sent w' := by
  cases h with
  | begin hdeserted => exact .begin (hdeserted.resumes hw)
  | opening hserves => exact .opening (hserves.resumes hw)
  | pulling h hle => exact .pulling (h.rests (.inr hw)) hle
  | sending h hle => exact .sending (h.rests (.inr hw)) hle
  | winding h hle => exact .winding h hle

theorem stop {cursor cursor' : σ} {phase : Phase} (e : QueryError) (w : World)
    (hle : (rowsIn sent).length ≤ limit) :
    Spends m store context env limit (Worker.stop m ⟨context, cursor, phase⟩ cursor' e w).1 sent
      (Worker.stop m ⟨context, cursor, phase⟩ cursor' e w).2 := by
  unfold Worker.stop
  split
  · exact .winding rfl hle
  · exact .winding rfl hle

theorem openCursor (hsupply : m.Supply context Idle)
    (hlimits : m.Limits context.config store Idle env limit) (hw : w.Serves store context) :
    Spends m store context env limit
      (Worker.openCursor m ⟨context, m.fresh (.ofEnv env), .opening⟩ w).1 []
      (Worker.openCursor m ⟨context, m.fresh (.ofEnv env), .opening⟩ w).2 := by
  obtain ⟨s, hidle, hopenTop⟩ := hsupply.openTop_eq env w
  rw [Worker.openCursor, hopenTop]
  cases hopened : (m.openRun context s w).result with
  | error e => exact stop e _ (Nat.zero_le limit)
  | ok u => exact .pulling (hlimits rfl hidle hw hopened) (Nat.le_of_eq (Nat.zero_add limit))

theorem pull {cursor : σ} {n : Nat} (hsilent : (m.next context cursor w).world.signals.alarm = none)
    (h : m.AtMost context n cursor w) (hle : (rowsIn sent).length + n ≤ limit) :
    Spends m store context env limit (Worker.pull m ⟨context, cursor, .pulling⟩ w).1 sent
      (Worker.pull m ⟨context, cursor, .pulling⟩ w).2 := by
  have hle' := Nat.le_trans (Nat.le_add_right _ _) hle
  unfold Worker.pull
  dsimp only
  match hresult : (m.next context cursor w).result with
  | .error e => exact stop e _ hle'
  | .ok none => exact .winding rfl hle'
  | .ok (some row) =>
      obtain ⟨n', hless, hrest⟩ := h.next hresult
      have hcheck : ((m.next context cursor w).world.check context).2 =
          (m.next context cursor w).world := by
        rw [World.check, Signals.tick_of_silent hsilent]
      dsimp only
      generalize (m.next context cursor w).world.check context = x at hcheck
      obtain ⟨e | u, w'⟩ := x
      · exact .winding rfl hle'
      · obtain rfl : w' = (m.next context cursor w).world := hcheck
        exact .sending hrest (by omega)

/-- Once it winds up, a worker sends its report and nothing else. -/
theorem advance_of_isWinding (h : k.isWinding = true) :
    (k.advance m i w).1.isWinding = true ∧ rowsIn (k.advance m i w).2.1 = [] := by
  obtain ⟨context, cursor, phase⟩ := k
  unfold Worker.advance step
  cases phase with
  | closing pumped => exact ⟨rfl, rfl⟩
  | ending result =>
      cases result with
      | error e => exact ⟨rfl, rfl⟩
      | ok u => exact ⟨rfl, rfl⟩
  | reporting result =>
      cases result with
      | error e => exact ⟨rfl, rfl⟩
      | ok u => exact ⟨rfl, rfl⟩
  | ended => exact ⟨rfl, rfl⟩
  | aborted => exact ⟨rfl, rfl⟩
  | _ => cases h

theorem advance (hm : m.Local Owns) (hsupply : m.Supply context Idle)
    (hlimits : m.Limits context.config store Idle env limit) (hfits : everything.Fits w)
    (howned : k.Owned Owns (everything.upto w))
    (h : Spends m store context env limit k sent w) :
    Spends m store context env limit (k.advance m i w).1 (sent ++ (k.advance m i w).2.1)
      (k.advance m i w).2.2 := by
  cases h with
  | begin hw =>
      unfold Worker.advance step beginTransaction
      rcases hw.beginWork with ⟨w', hbegun, hw'⟩ | ⟨e, w', hrefused⟩
      · simp only [hbegun]
        exact .opening hw'
      · simp only [hrefused]
        exact .winding rfl (Nat.zero_le limit)
  | opening hw => exact openCursor hsupply hlimits hw
  | pulling h hle =>
      obtain ⟨-, hkeeps, -⟩ := hm.next (howned.hosts hfits) howned.cursor
      rw [Worker.advance, step, Channel.vacant, List.append_nil]
      exact pull hkeeps.fits.silent h hle
  | @sending cursor sent row n w h hle =>
      have hnext : Spends m store context env limit ⟨context, cursor, .pulling⟩
          (sent ++ [.row i row]) w := by
        refine .pulling h ?_
        rw [rowsIn_append, List.length_append]
        have hone : (rowsIn [Message.row i row]).length = 1 := rfl
        omega
      exact hnext
  | winding h hle =>
      obtain ⟨hwinding, hrows⟩ := advance_of_isWinding (m := m) (i := i) (w := w) h
      refine .winding hwinding ?_
      rwa [rowsIn_append, hrows, List.append_nil]

end Spends

/-- A worker on its own sends no more rows than its cursor hands out. -/
theorem Alone.spends (hm : m.Local Owns) (hsupply : m.Supply context Idle)
    (hlimits : m.Limits context.config store Idle env limit)
    (h : Alone m store i context env k sent w) : Spends m store context env limit k sent w := by
  induction h with
  | start hw => exact .begin hw
  | wait h hw ih => exact ih.resumes hw
  | step h ih =>
      obtain ⟨hfits, howned⟩ := h.owned hm
      exact ih.advance hm hsupply hlimits hfits howned

end Worker

theorem Machine.MayYield.length_le {σ : Type} {m : Machine σ} {Owns : Ownership σ}
    {Idle : Standing σ} {config : Config} {store : Store} {env : Env} {limit : Nat}
    {rows : List Row} (hm : m.Local Owns) (hsupply : ∀ ctx, m.Supply ctx Idle)
    (hlimits : m.Limits config store Idle env limit)
    (h : m.MayYield config store env rows) : rows.length ≤ limit := by
  obtain ⟨i, k, more, context, w, rfl, -, halone⟩ := h
  have hle := (halone.spends hm (hsupply context) hlimits).length_le
  rw [rowsIn_append, rowsIn_map_row, List.length_append] at hle
  exact Nat.le_trans (Nat.le_add_right _ _) hle

/-! ## Runs -/

namespace Job

variable {σ : Type} {j : Job σ} {i : Nat} {e : Env} {h : Holdings} {k : Worker σ}
  {sent log : List Message} {r : Run σ} {w w' : World} {ctx : Context}

theorem Attends.resumes (ha : j.Attends i e h k sent w) (hw : w.Resumes w') :
    j.Attends i e h k sent w' where
  sessions s hs := Nat.lt_of_lt_of_le (ha.sessions s hs) hw.sessions
  flags f hf := Nat.lt_of_lt_of_le (ha.flags f hf) hw.flags
  shared := ha.shared
  unshared := ha.unshared
  exclusive he := by
    rw [hw.active]
    exact ha.exclusive he
  owned := ha.owned
  config := ha.config
  token := ha.token
  still := ⟨hw.committed.trans ha.still.committed, by rw [hw.active]; exact ha.still.active⟩
  alone := ha.alone.wait
    { committed := hw.committed
      active := by rw [World.only, World.only, hw.active]
      raised := by rw [World.only, World.only, hw.raised]
      silent := hw.silent
      sessions := hw.sessions
      flags := hw.flags }

theorem At.rests (hat : j.At log r w) (hw : w.Rests w') : j.At log r w' := by
  rcases hw with rfl | hw
  · exact hat
  · obtain ⟨⟨holdings, hc⟩, hreported, hlive, hworkers⟩ := hat
    refine ⟨⟨holdings, hc.steady.resumes hw, hw.committed.trans hc.store, hc.token, hc.reader,
      hc.room, hc.single, hc.apart, ?_, hc.senders⟩, hreported, hlive, hworkers⟩
    intro i k hk
    obtain ⟨e, he, ha⟩ := hc.attends i k hk
    exact ⟨e, he, ha.resumes hw⟩

/-- No worker sends more than `limit` rows. -/
def Limited (j : Job σ) (limit : Nat) : Prop :=
  ∀ e ∈ j.envs, ∀ rows, j.machine.MayYield j.config j.store e rows → rows.length ≤ limit

theorem At.length_rowsIn_le {limit : Nat} (hlimited : j.Limited limit) (hat : j.At log r w) :
    (rowsIn log).length ≤ j.envs.length * limit := by
  have hsenders : ∀ message ∈ log, message.worker < j.envs.length := by
    intro message hmem
    obtain ⟨holdings, hc⟩ := hat.company
    rw [← hat.workers]
    exact hc.senders message (List.mem_append_left _ hmem)
  rw [(rowsIn_perm_flatMap hsenders).length_eq, List.length_flatMap]
  have hle : ∀ n ∈ (List.range j.envs.length).map fun i => (rowsFrom i log).length,
      n ≤ limit := by
    intro n hn
    obtain ⟨i, hi, rfl⟩ := List.mem_map.mp hn
    have hi' : i < r.workers.length := by
      rw [hat.workers]
      exact List.mem_range.mp hi
    obtain ⟨e, he, hmay⟩ := hat.company.mayYield hi'
    exact hlimited e (List.mem_of_getElem? he) _ hmay
  have hsum := List.sum_le_card_nsmul _ limit hle
  rwa [List.length_map, List.length_range] at hsum

/-- An opened parallel map hands out no more rows than its workers send. -/
theorem At.atMost {limit : Nat} (hm : j.machine.Local j.Owns) (hlimited : j.Limited limit)
    (hwatch : ∀ f ∈ ctx.token.flags, f ∈ j.token.flags) (p : Partitioning) (hat : j.At log r w)
    {s : ParallelCursor.State σ} (hrun : s.run = some r) (hactive : s.base.state = .active) :
    (ParallelCursor.machine j.machine p).AtMost ctx
      (j.envs.length * limit - (rowsIn log).length) s w := by
  have hstep : ∀ {n : Nat} {s : ParallelCursor.State σ} {w w' : World} {row : Row},
      (∃ log r, s.run = some r ∧ s.base.state = .active ∧ j.At log r w ∧
        n = j.envs.length * limit - (rowsIn log).length) → w.Rests w' →
      ((ParallelCursor.machine j.machine p).next ctx s w').result = .ok (some row) →
      ∃ n' < n, ∃ log r, ((ParallelCursor.machine j.machine p).next ctx s w').state.run = some r ∧
        ((ParallelCursor.machine j.machine p).next ctx s w').state.base.state = .active ∧
        j.At log r ((ParallelCursor.machine j.machine p).next ctx s w').world ∧
        n' = j.envs.length * limit - (rowsIn log).length := by
    rintro n s w w' row ⟨log, r, hrun, hactive, hat, rfl⟩ hw' hrow
    have hhears := (hat.rests hw').next hm hwatch hrun hactive
    have hnext : (ParallelCursor.machine j.machine p).next ctx s w' =
        ParallelCursor.next j.machine ctx s w' := rfl
    rw [hnext] at hrow ⊢
    generalize ParallelCursor.heard j.machine ctx s w' = heard at hhears
    generalize ParallelCursor.next j.machine ctx s w' = o at hhears hrow ⊢
    cases hhears with
    | @row ends i row' s' r' w'' hrun' hactive' hat' =>
        refine ⟨_, ?_, _, r', hrun', hactive', hat', rfl⟩
        have hall := hat'.length_rowsIn_le hlimited
        rw [rowsIn_append, rowsIn_append, rowsIn_map_finished] at hall ⊢
        have hone : (rowsIn [Message.row i row']).length = 1 := rfl
        simp only [List.length_append, List.length_nil, hone] at hall ⊢
        omega
    | done ends hrun' hat' hlive => cases hrow
    | failed ends hrun' hat' => cases hrow
    | lost ends hrun' hat' hlive hdone hqueue => cases hrow
  exact Machine.AtMost.of_steps
    (R := fun n s w => ∃ log r, s.run = some r ∧ s.base.state = .active ∧ j.At log r w ∧
      n = j.envs.length * limit - (rowsIn log).length) hstep ⟨log, r, hrun, hactive, hat, rfl⟩

end Job

namespace ParallelCursor

variable {σ : Type} {m : Machine σ} {Owns : Ownership σ} {Idle : Standing σ} {store : Store}
  {ctx : Context} {env : Env} {p : Partitioning} {s : State σ} {w : World} {limit : Nat}

theorem atMost (hm : m.Local Owns) (hsupply : ∀ ctx, m.Supply ctx Idle)
    (hlimits : ∀ b ∈ p.partitions,
      m.Limits ctx.config store Idle (env.fork.set p.position b) limit)
    (hw : w.Quiet store ctx) (henv : s.base.env = some env)
    (hopen : (openRun m p ctx s w).result = .ok ()) :
    (machine m p).AtMost ctx (p.partitions.length * limit) (openRun m p ctx s w).state
      (openRun m p ctx s w).world := by
  obtain ⟨r, hrun, hactive, hat, -⟩ := openRun_at (welcomes_true _) hm hw henv trivial hopen
  have hlimited : (job m Owns store p ctx env w).Limited limit := by
    intro e he rows hmay
    obtain ⟨b, hb, rfl⟩ := List.mem_map.mp he
    exact hmay.length_le hm hsupply (hlimits b hb)
  have hatMost := hat.atMost hm hlimited (fun f hf => List.mem_cons_of_mem _ hf) p hrun hactive
  have hlength : (job m Owns store p ctx env w).envs.length = p.partitions.length := by
    rw [job, List.length_map]
  rwa [hlength] at hatMost

/-- Inside a transaction, the workers of a run do not write. -/
theorem mode_of_inside (hinside : w.engine.inTransaction ctx.session = true)
    (hopen : (openRun m p ctx s w).result = .ok ()) : ctx.config.mode = .readOnly := by
  cases hmode : ctx.config.mode with
  | readOnly => rfl
  | readWrite =>
      have hrefused : ∃ e, checkMode p ctx w = .error e := by
        rw [checkMode, hmode]
        dsimp only
        by_cases hseveral : 1 < p.partitions.length
        · exact ⟨_, if_pos hseveral⟩
        · exact ⟨_, (if_neg hseveral).trans (if_pos hinside)⟩
      obtain ⟨e, hrefused⟩ := hrefused
      rw [openRun] at hopen
      cases hbegin : s.base.beginOpen with
      | error e =>
          rw [hbegin] at hopen
          cases hopen
      | ok base =>
          simp only [hbegin, startRun, hrefused] at hopen
          cases hopen

theorem limits (hm : m.Local Owns) (hsupply : ∀ ctx, m.Supply ctx Idle) {config : Config}
    (hlimits : ∀ b ∈ p.partitions,
      m.Limits config store Idle (env.fork.set p.position b) limit) :
    (machine m p).Limits config store Leaf.Idle env (p.partitions.length * limit) := by
  rintro ctx rfl source s ⟨-, henv, -⟩ w hw hopen
  have hquiet : w.Quiet store ctx := by
    refine ⟨hw.steady, hw.committed, ?_⟩
    intro hmode
    rw [mode_of_inside hw.inside hopen] at hmode
    cases hmode
  exact atMost hm hsupply hlimits hquiet henv hopen

end ParallelCursor
end OrderedQuery
