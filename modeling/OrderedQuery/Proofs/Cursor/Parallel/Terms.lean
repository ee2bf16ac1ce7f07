import OrderedQuery.Proofs.Cursor.Parallel.Invariants
import OrderedQuery.Proofs.Cursor.Terms

/-!
# Parallel maps uphold their terms

The cursor of a worker is called in a context of its own, and what the worker sends is what its
cursor has returned.  Every step of a worker keeps this, so it holds of whole runs, in any order of
their steps; and the reader returns nothing but what has been sent, apart from errors that come
from how the run went.
-/

namespace OrderedQuery

variable {T : Terms} {S : Env → Prop} {V : Row → Prop}

/-- What a worker is about to send is right. -/
def Phase.Kept (T : Terms) (V : Row → Prop) : Phase → Prop
  | sending row => V row
  | closing result | ending result | reporting result => FailsWith T.Error result
  | _ => True

/-- What has been sent is right. -/
def Message.Kept (T : Terms) (V : Row → Prop) : Message → Prop
  | row _ r => V r
  | finished _ => True
  | failed _ e => T.Error e

/-- All messages on their way are right. -/
def Channel.Kept (T : Terms) (V : Row → Prop) (ch : Channel) : Prop :=
  ∀ message ∈ ch.queue, message.Kept T V

theorem Channel.Kept.send {ch : Channel} (h : ch.Kept T V) {message : Message}
    (hmessage : message.Kept T V) : (ch.send message).Kept T V := by
  rw [Channel.send]
  split
  · intro message' hmem
    rcases List.mem_append.mp hmem with hmem | hmem
    · exact h message' hmem
    · rw [List.mem_singleton.mp hmem]
      exact hmessage
  · exact h

namespace World

variable {w : World}

theorem beginWork_yields (hw : T.World w) (ctx : Context) :
    Yields T.Error (fun _ => True) (w.beginWork ctx).1 ∧ T.World (w.beginWork ctx).2 := by
  refine ⟨?_, T.world_evolves (w.evolves_beginWork ctx) hw⟩
  rw [beginWork]
  dsimp only
  split
  · exact .error (T.error_operational trivial)
  · split
    · exact .ok trivial
    · exact .error (T.error_operational trivial)

theorem commitWork_yields (hw : T.World w) (ctx : Context) :
    Yields T.Error (fun _ => True) (w.commitWork ctx).1 ∧ T.World (w.commitWork ctx).2 := by
  refine ⟨?_, T.world_evolves (w.evolves_commitWork ctx) hw⟩
  rw [commitWork]
  dsimp only
  split
  · exact .error (T.error_operational trivial)
  · split
    · exact .ok trivial
    · exact .error (T.error_operational trivial)

/-- A context derived with a child of a token is one that workers run in. -/
theorem deriveContext_yields (hw : T.World w) (ctx : Context) {t : Token}
    (ht : ∃ flag, t.flags = flag :: ctx.token.flags) :
    Yields T.Error (T.Employs ctx) (w.deriveContext ctx t).1 ∧
      T.World (w.deriveContext ctx t).2 := by
  refine ⟨?_, T.world_evolves (w.evolves_deriveContext ctx t) hw⟩
  obtain ⟨hchecked, -⟩ := check_yields T hw ctx
  obtain ⟨flag, hflags⟩ := ht
  obtain rfl : t = ⟨flag :: ctx.token.flags⟩ := by rw [← hflags]
  rw [deriveContext]
  generalize w.check ctx = x at hchecked
  obtain ⟨_ | _, w'⟩ := x
  · exact .error hchecked.of_error
  · exact .ok (T.employs ctx _ flag)

theorem hire_yields (hw : T.World w) (ctx : Context) {t : Token}
    (ht : ∃ flag, t.flags = flag :: ctx.token.flags) (number : Nat) :
    Yields T.Error (T.Employs ctx) (w.hire ctx t number).1 ∧ T.World (w.hire ctx t number).2 := by
  refine ⟨?_, T.world_evolves (w.evolves_hire ctx t number) hw⟩
  obtain ⟨hderived, -⟩ := deriveContext_yields hw ctx ht
  rw [hire]
  generalize w.deriveContext ctx t = x at hderived
  obtain ⟨_ | _, w'⟩ := x
  · exact .error hderived.of_error
  · dsimp only
    split
    · exact .error (T.error_operational trivial)
    · exact hderived

end World

variable {σ : Type} {m : Machine σ} {I : Context → σ → Prop} {ctx : Context}

/-! ## Workers -/

namespace Worker

/-- A worker of a map that is called in `ctx`. -/
structure Kept (T : Terms) (V : Row → Prop) (I : Context → σ → Prop) (ctx : Context)
    (k : Worker σ) : Prop where
  employed : T.Employs ctx k.context
  cursor : I k.context k.cursor
  phase : k.phase.Kept T V

/-- A worker after an operation, and the world the operation leaves behind. -/
abbrev StepKept (T : Terms) (V : Row → Prop) (I : Context → σ → Prop) (ctx : Context)
    (x : Worker σ × World) : Prop :=
  x.1.Kept T V I ctx ∧ T.World x.2

variable {k : Worker σ} {w : World}

theorem Kept.stop (hm : m.Upholds T S V I) (h : k.Kept T V I ctx) {cursor : σ}
    (hcursor : I k.context cursor) {e : QueryError} (he : T.Error e) (hw : T.World w) :
    StepKept T V I ctx (k.stop m cursor e w) := by
  rw [Worker.stop]
  split
  · refine ⟨⟨h.employed, hcursor, trivial⟩, ?_⟩
    exact T.world_evolves ((hm.evolving.letGo cursor w).trans (World.evolves_rollback _ _)) hw
  · exact ⟨⟨h.employed, hcursor, .error he⟩, hw⟩

theorem Kept.openCursor (hm : m.Upholds T S V I) (h : k.Kept T V I ctx) (hw : T.World w) :
    StepKept T V I ctx (k.openCursor m w) := by
  have hopened := hm.openTop k.context h.cursor hw
  rw [Worker.openCursor]
  generalize m.openTop k.context k.cursor w = o at hopened
  obtain ⟨hcursor, he | _, hw⟩ := hopened
  · exact h.stop hm hcursor he hw
  · dsimp only
    split
    · rename_i heq
      cases heq
    · exact ⟨⟨h.employed, hcursor, .ok ()⟩, hw⟩
    · exact ⟨⟨h.employed, hcursor, trivial⟩, hw⟩

theorem Kept.pull (hm : m.Upholds T S V I) (h : k.Kept T V I ctx) (hw : T.World w) :
    StepKept T V I ctx (k.pull m w) := by
  have hnext := hm.next k.context h.cursor hw
  rw [Worker.pull]
  generalize m.next k.context k.cursor w = o at hnext
  obtain ⟨hcursor, he | hrow, hw⟩ := hnext
  · exact h.stop hm hcursor he hw
  · rename_i cursor w row
    cases row with
    | none => exact ⟨⟨h.employed, hcursor, .ok ()⟩, hw⟩
    | some row =>
        have hchecked := World.check_yields T hw k.context
        dsimp only
        generalize w.check k.context = x at hchecked
        obtain ⟨x, w⟩ := x
        obtain ⟨he | _, hw⟩ := hchecked
        · exact ⟨⟨h.employed, hcursor, .error he⟩, hw⟩
        · exact ⟨⟨h.employed, hcursor, hrow row rfl⟩, hw⟩

theorem Kept.close (hm : m.Upholds T S V I) (h : k.Kept T V I ctx)
    {pumped : Except QueryError Unit} (hpumped : FailsWith T.Error pumped) (hw : T.World w) :
    StepKept T V I ctx (k.close m pumped w) := by
  have hclosed := hm.closeTop k.context h.cursor hw
  rw [Worker.close]
  generalize m.closeTop k.context k.cursor w = o at hclosed
  obtain ⟨hcursor, hresult, hw⟩ := hclosed
  rename_i cursor w
  have hdestroyed := hm.destroy k.context hcursor hw
  dsimp only
  generalize m.destroy k.context cursor w = o at hdestroyed
  obtain ⟨hcursor, hresult', hw⟩ := hdestroyed
  exact ⟨⟨h.employed, hcursor,
    hpumped.firstError (hresult.failsWith.firstError hresult'.failsWith)⟩, hw⟩

theorem Kept.endTransaction (h : k.Kept T V I ctx) {result : Except QueryError Unit}
    (hresult : FailsWith T.Error result) (hw : T.World w) :
    StepKept T V I ctx (k.endTransaction result w) := by
  cases result with
  | error e =>
      exact ⟨⟨h.employed, h.cursor, hresult⟩, T.world_evolves
        ((w.evolves_rollback k.context).trans (World.evolves_recordFinished _)) hw⟩
  | ok _ =>
      obtain ⟨hcommitted, hw⟩ := World.commitWork_yields hw k.context
      exact ⟨⟨h.employed, h.cursor, hcommitted.failsWith⟩,
        T.world_evolves (World.evolves_recordFinished _) hw⟩

theorem Kept.beginTransaction (h : k.Kept T V I ctx) (hw : T.World w) :
    StepKept T V I ctx (k.beginTransaction w) := by
  have hbegun := World.beginWork_yields hw k.context
  rw [Worker.beginTransaction]
  generalize w.beginWork k.context = x at hbegun
  obtain ⟨x, w⟩ := x
  obtain ⟨he | _, hw⟩ := hbegun
  · exact ⟨⟨h.employed, h.cursor, .error he⟩, T.world_evolves (World.evolves_recordFinished _) hw⟩
  · exact ⟨⟨h.employed, h.cursor, trivial⟩, hw⟩

/-- A step keeps a worker to its terms, and what it sends is right. -/
theorem Kept.step (hm : m.Upholds T S V I) (h : k.Kept T V I ctx) (i : Nat) {ch : Channel}
    (hch : ch.Kept T V) (hw : T.World w) :
    (k.step m i ch w).1.Kept T V I ctx ∧ (k.step m i ch w).2.1.Kept T V ∧
      T.World (k.step m i ch w).2.2 := by
  have hphase := h.phase
  rw [Worker.step]
  cases heq : k.phase with
  | begin =>
      obtain ⟨hk, hw⟩ := h.beginTransaction hw
      exact ⟨hk, hch, hw⟩
  | opening =>
      obtain ⟨hk, hw⟩ := h.openCursor hm hw
      exact ⟨hk, hch, hw⟩
  | pulling =>
      obtain ⟨hk, hw⟩ := h.pull hm hw
      exact ⟨hk, hch, hw⟩
  | sending row =>
      rw [heq] at hphase
      dsimp only
      split
      · exact ⟨⟨h.employed, h.cursor, trivial⟩, hch.send hphase, hw⟩
      · exact ⟨⟨h.employed, h.cursor, .error (T.error_operational trivial)⟩, hch, hw⟩
  | closing pumped =>
      rw [heq] at hphase
      obtain ⟨hk, hw⟩ := h.close hm hphase hw
      exact ⟨hk, hch, hw⟩
  | ending result =>
      rw [heq] at hphase
      obtain ⟨hk, hw⟩ := h.endTransaction hphase hw
      exact ⟨hk, hch, hw⟩
  | reporting result =>
      rw [heq] at hphase
      refine ⟨⟨h.employed, h.cursor, trivial⟩, hch.send ?_, hw⟩
      cases result with
      | error e => exact FailsWith.of_error hphase
      | ok _ => trivial
  | ended => exact ⟨h, hch, hw⟩
  | aborted => exact ⟨h, hch, hw⟩

end Worker

/-! ## Runs -/

namespace Run

/-- A run of a map that is called in `ctx`: its workers are on their terms, and what they have sent
is right. -/
structure Kept (T : Terms) (V : Row → Prop) (I : Context → σ → Prop) (ctx : Context)
    (r : Run σ) : Prop where
  workers : ∀ k ∈ r.workers, k.Kept T V I ctx
  channel : r.channel.Kept T V

/-- A run after some steps, and the world the steps leave behind. -/
abbrev StepsKept (T : Terms) (V : Row → Prop) (I : Context → σ → Prop) (ctx : Context)
    (r : Run σ) (w : World) : Prop :=
  r.Kept T V I ctx ∧ T.World w

variable {r : Run σ} {w : World}

theorem kept_invariant (hm : m.Upholds T S V I) (ctx : Context) :
    Invariant m (StepsKept T V I ctx) where
  draw h := ⟨h.1, T.world_evolves (World.evolves_draw _) h.2⟩
  step {r w} h i := by
    obtain ⟨hr, hw⟩ := h
    rw [Run.stepWorker]
    cases hk : r.workers[i]? with
    | none => exact ⟨hr, hw⟩
    | some k =>
        obtain ⟨hk, hch, hw⟩ := (hr.workers k (List.mem_of_getElem? hk)).step hm i hr.channel hw
        refine ⟨⟨?_, hch⟩, hw⟩
        intro k' hmem
        rcases List.mem_or_eq_of_mem_set hmem with hmem | rfl
        · exact hr.workers k' hmem
        · exact hk

theorem Kept.note (h : r.Kept T V I ctx) (i : Nat) : (r.note i).Kept T V I ctx :=
  ⟨h.workers, h.channel⟩

theorem Kept.shutdown (hm : m.Upholds T S V I) (h : r.Kept T V I ctx) (hw : T.World w) :
    StepsKept T V I ctx (r.shutdown m w).1 (r.shutdown m w).2 :=
  (kept_invariant hm ctx).settle _
    ⟨⟨h.workers, List.forall_mem_nil _⟩, T.world_evolves (w.evolves_cancel r.token) hw⟩

theorem verdict_yields (T : Terms) (r : Run σ) : Yields T.Error (fun _ => True) r.verdict := by
  rw [verdict]
  split
  · split
    · exact .error (T.error_operational trivial)
    · exact .ok trivial
  · exact .error (T.error_operational trivial)

end Run

/-! ## Parallel maps -/

namespace ParallelCursor

variable {p : Partitioning} {S' : Env → Prop}

abbrev Kept (T : Terms) (S : Env → Prop) (V : Row → Prop) (I : Context → σ → Prop)
    (ctx : Context) : State σ → Prop :=
  Leaf.Kept S fun run => ∀ r ∈ run, r.Kept T V I ctx

theorem kept_none {s : State σ} (hbase : s.base.Kept S) (hsource : s.source.Supplies S)
    (hrun : s.run = none) : Kept T S V I ctx s := by
  refine ⟨hbase, hsource, ?_⟩
  rw [hrun]
  exact nofun

theorem kept_some {s : State σ} {r : Run σ} (hbase : s.base.Kept S)
    (hsource : s.source.Supplies S) (hrun : s.run = some r) (hr : r.Kept T V I ctx) :
    Kept T S V I ctx s := by
  refine ⟨hbase, hsource, ?_⟩
  rw [hrun]
  rintro _ ⟨⟩
  exact hr

theorem checkMode_yields (T : Terms) (p : Partitioning) (ctx : Context) (w : World) :
    Yields T.Error (fun _ => True) (checkMode p ctx w) := by
  rw [checkMode]
  split
  · exact .ok trivial
  · split
    · exact .error (T.error_operational trivial)
    · split
      · exact .error (T.error_operational trivial)
      · exact .ok trivial

theorem giveUp_kept (hm : m.Upholds T S' V I) {r : Run σ} {w : World} (hr : r.Kept T V I ctx)
    (hw : T.World w) {e : QueryError} (he : T.Error e) :
    T.Error (giveUp m r e w).1 ∧ T.World (giveUp m r e w).2 := by
  obtain ⟨hr, hw⟩ := (Run.kept_invariant hm ctx).interleave (And.intro hr hw)
  obtain ⟨-, hw⟩ := hr.shutdown hm hw
  have hverdict := ((r.interleave m w).1.shutdown m (r.interleave m w).2).1.verdict_yields T
  rw [giveUp]
  dsimp only
  split
  · rename_i first hfirst
    rw [hfirst] at hverdict
    exact ⟨hverdict.of_error, hw⟩
  · exact ⟨he, hw⟩

theorem startWorkers_kept (hm : m.Upholds T S' V I) {env : Env} (position : Nat)
    {bindings : List Binding}
    (henv : ∀ b ∈ bindings, S' (env.fork.set position b)) {r : Run σ} {w : World}
    (htoken : ∃ flag, r.token.flags = flag :: ctx.token.flags) (hr : r.Kept T V I ctx)
    (hw : T.World w) :
    Yields T.Error (Run.Kept T V I ctx) (startWorkers m ctx env position bindings r w).1 ∧
      T.World (startWorkers m ctx env position bindings r w).2 := by
  induction bindings generalizing r w with
  | nil => exact ⟨.ok hr, hw⟩
  | cons b bindings ih =>
      have hhired := World.hire_yields hw ctx htoken r.workers.length
      rw [startWorkers]
      generalize w.hire ctx r.token r.workers.length = x at hhired
      obtain ⟨x, w⟩ := x
      obtain ⟨he | hemploys, hw⟩ := hhired
      · obtain ⟨he, hw⟩ := giveUp_kept hm hr hw he
        exact ⟨.error he, hw⟩
      · rename_i context
        have hsupplies : (BindingSource.ofEnv (env.fork.set position b)).Supplies S' :=
          henv b List.mem_cons_self
        have hstarted : Run.Kept T V I ctx
            { r with workers := r.workers ++ [.start m context (env.fork.set position b)] } := by
          refine ⟨?_, hr.channel⟩
          intro k hmem
          rcases List.mem_append.mp hmem with hmem | hmem
          · exact hr.workers k hmem
          · rw [List.mem_singleton.mp hmem]
            exact ⟨hemploys, hm.fresh context hsupplies, trivial⟩
        have hmingled := (Run.kept_invariant hm ctx).interleave
          (And.intro hstarted (T.world_evolves w.evolves_recordStarted hw))
        have hsame := (Run.token_invariant m r.token).interleave (w := w.recordStarted)
          (r := { r with workers := r.workers ++ [.start m context (env.fork.set position b)] }) rfl
        refine ih (fun b' hb' => henv b' (List.mem_cons_of_mem b hb')) ?_ hmingled.1 hmingled.2
        obtain ⟨flag, hflag⟩ := htoken
        exact ⟨flag, (congrArg Token.flags hsame).trans hflag⟩

theorem startRun_kept (hm : m.Upholds T S' V I)
    (henv : ∀ env, S env → ∀ b ∈ p.partitions, S' (env.fork.set p.position b))
    (ctx : Context) {base : CursorBase} (hbase : base.Kept S) {w : World} (hw : T.World w) :
    Yields T.Error (Run.Kept T V I ctx) (startRun m p ctx base w).1 ∧
      T.World (startRun m p ctx base w).2 := by
  have hmode := checkMode_yields T p ctx w
  rw [startRun]
  generalize checkMode p ctx w = x at hmode
  obtain he | _ := hmode
  · exact ⟨.error he, hw⟩
  · have hcurrent := hbase.currentEnv (T := T)
    dsimp only
    generalize base.currentEnv = x at hcurrent
    obtain he | hsupplied := hcurrent
    · exact ⟨.error he, hw⟩
    · refine startWorkers_kept hm p.position (henv _ hsupplied) ⟨_, rfl⟩ ?_
        (T.world_evolves (w.evolves_newChild ctx.token) hw)
      exact ⟨List.forall_mem_nil _, List.forall_mem_nil _⟩

theorem fail_kept (hm : m.Upholds T S' V I) {s : State σ} (hs : Kept T S V I ctx s)
    {e : QueryError} (he : T.Error e) {w : World} (hw : T.World w) :
    (fail m s e w).Keeps T (Kept T S V I ctx) fun row => ∀ r ∈ row, V r := by
  rw [fail]
  split
  · exact .error hs he hw
  · rename_i r hrun
    obtain ⟨-, hw⟩ := (hs.run r hrun).shutdown hm hw
    exact .error (kept_none hs.base hs.source rfl) he hw

theorem complete_kept (hm : m.Upholds T S' V I) {s : State σ} (hs : Kept T S V I ctx s)
    {r : Run σ} (hr : r.Kept T V I ctx) {w : World} (hw : T.World w) :
    (complete m s r w).Keeps T (Kept T S V I ctx) fun row => ∀ r ∈ row, V r := by
  obtain ⟨-, hw⟩ := hr.shutdown hm hw
  have hverdict := (r.shutdown m w).1.verdict_yields T
  rw [complete]
  dsimp only
  generalize (r.shutdown m w).1.verdict = x at hverdict
  obtain he | _ := hverdict
  · exact .error (kept_none hs.base hs.source rfl) he hw
  · exact .done (kept_none hs.base.finish hs.source rfl) hw

theorem receive_kept (hm : m.Upholds T S' V I) (fuel : Nat) {s : State σ}
    (hs : Kept T S V I ctx s) {w : World} (hw : T.World w) :
    (receive m ctx fuel s w).Keeps T (Kept T S V I ctx) fun row => ∀ r ∈ row, V r := by
  induction fuel generalizing s w with
  | zero => exact .error hs (T.error_operational trivial) hw
  | succ fuel ih =>
      have hchecked := World.check_yields T hw ctx
      rw [receive]
      generalize w.check ctx = x at hchecked
      obtain ⟨x, w⟩ := x
      obtain ⟨he | _, hw⟩ := hchecked
      · exact fail_kept hm hs he hw
      · dsimp only
        split
        · exact .done ⟨hs.base.finish, hs.source, hs.run⟩ hw
        · rename_i r hrun
          have hgoes {r' : Run σ} (hr' : r'.Kept T V I ctx) :
              Kept T S V I ctx { s with run := some r' } := kept_some hs.base hs.source rfl hr'
          split
          · exact complete_kept hm hs (hs.run r hrun) hw
          · have hawaited := (Run.kept_invariant hm ctx).await (And.intro (hs.run r hrun) hw)
            generalize r.await m w = x at hawaited
            cases hawaited with
            | @message r₁ w₁ message queue h hqueue =>
                obtain ⟨hr, hw⟩ := h
                have hsent := hr.channel
                rw [Channel.Kept, hqueue, List.forall_mem_cons] at hsent
                obtain ⟨hmessage, hrest⟩ := hsent
                have htaken : Run.Kept T V I ctx
                    { r₁ with channel := { r₁.channel with queue } } :=
                  ⟨hr.workers, hrest⟩
                cases message with
                | row i row =>
                    have hmingled := (Run.kept_invariant hm ctx).interleave (And.intro htaken hw)
                    exact .row (kept_some (hs.base.hand _) hs.source rfl hmingled.1) hmessage
                      hmingled.2
                | finished i => exact ih (hgoes (htaken.note i)) hw
                | failed i e => exact fail_kept hm (hgoes (htaken.note i)) hmessage hw
            | disconnected h =>
                refine fail_kept hm (hgoes h.1) ?_ h.2
                exact T.error_operational trivial
            | timeout h => exact ih (hgoes h.1) h.2
            | stalled h => exact .error (hgoes h.1) (T.error_operational trivial) h.2

theorem closeRun_kept (hm : m.Upholds T S' V I) {s : State σ} (hs : Kept T S V I ctx s)
    {w : World} (hw : T.World w) :
    (closeRun m ctx s w).Keeps T (Kept T S V I ctx) fun _ => True := by
  have hbegun := hs.base.beginClose (T := T)
  rw [closeRun]
  generalize s.base.beginClose = x at hbegun
  obtain he | hbase := hbegun
  · exact .error hs he hw
  · dsimp only
    split
    · exact .ok ⟨hbase, hs.source, hs.run⟩ trivial hw
    · rename_i r hrun
      obtain ⟨-, hw⟩ := (hs.run r hrun).shutdown hm hw
      exact .intro (kept_none hbase hs.source rfl) (Run.verdict_yields T _) hw

/-- A parallel map upholds its terms if its input does in the environments of the workers. -/
theorem upholds (hm : m.Upholds T S' V I)
    (henv : ∀ env, S env → ∀ b ∈ p.partitions, S' (env.fork.set p.position b)) :
    (machine m p).Upholds T S V (Kept T S V I) where
  evolving := evolving hm.evolving p
  fresh _ _ hsource := kept_none (CursorBase.kept_start _) hsource rfl
  openRun ctx s w hs hw := by
    have hbegun := hs.base.beginOpen (T := T)
    dsimp only [machine]
    rw [openRun]
    generalize s.base.beginOpen = x at hbegun
    obtain he | hbase := hbegun
    · exact .error hs he hw
    · rename_i base
      have hstarted := startRun_kept hm henv ctx hbase hw
      dsimp only
      generalize startRun m p ctx base w = x at hstarted
      obtain ⟨x, w⟩ := x
      obtain ⟨he | hr, hw⟩ := hstarted
      · exact .error ⟨hbase.finish, hs.source, hs.run⟩ he hw
      · exact .ok (kept_some hbase hs.source rfl hr) trivial hw
  next ctx s w hs hw := by
    have hchecked := s.base.checkNext_yields T
    dsimp only [machine]
    rw [next]
    generalize s.base.checkNext = x at hchecked
    obtain he | _ := hchecked
    · exact .error hs he hw
    · exact receive_kept hm _ hs hw
  closeRun _ _ _ hs hw := closeRun_kept hm hs hw
  destroy ctx _ _ hs hw := Leaf.destroy_kept ctx (closeRun_kept hm hs hw) hs hw
  openBindings ctx _ _ hs hw := Leaf.openBindings_kept ctx hs hw
  nextBindings ctx _ _ hs hw := Leaf.nextBindings_kept ctx hs hw
  closeBindings ctx _ _ hs hw := Leaf.closeBindings_kept ctx hs hw

end ParallelCursor
end OrderedQuery
