import OrderedQuery.Proofs.Query.Evolution

/-!
# Worlds that look alike

Two runs in worlds that differ in their signals alone go on in lockstep as long as no poll tells
the signals apart.  A `Likeness` says which signals look alike, and when the lockstep is lost for
good: what is lost stays lost, since flags are only ever raised.

`Likeness.exact` relates equal signals and loses nothing.
-/

namespace OrderedQuery

/-- Signals that look alike until the lockstep is lost. -/
structure Likeness where
  Like : Signals → Signals → Prop
  Lost : Signals → Prop
  issued {s s' : Signals} : Like s s' → s'.issued = s.issued
  isCancelled {s s' : Signals} : Like s s' → ∀ t, s'.isCancelled t = s.isCancelled t
  tick {s s' : Signals} : Like s s' → Lost s.tick ∨ Like s.tick s'.tick
  newChild {s s' : Signals} : Like s s' → ∀ t, Like (s.newChild t).2 (s'.newChild t).2
  cancel {s s' : Signals} : Like s s' → ∀ t, Like (s.cancel t) (s'.cancel t)
  lost {s s' : Signals} : (∀ f ∈ s.raised, f ∈ s'.raised) → Lost s → Lost s'

/-- Equal signals. -/
def Likeness.exact : Likeness where
  Like s s' := s' = s
  Lost _ := False
  issued h := by rw [h]
  isCancelled h t := by rw [h]
  tick h := .inr (by rw [h])
  newChild h t := by rw [h]
  cancel h t := by rw [h]
  lost _ h := h

namespace World

/-- The worlds differ at most in signals that look alike. -/
inductive Alike (L : Likeness) (w : World) : World → Prop
  | intro {signals : Signals} (h : L.Like w.signals signals) : Alike L w { w with signals }

/-- The lockstep is lost. -/
abbrev Lost (L : Likeness) (w : World) : Prop := L.Lost w.signals

/-- Operations that return values and worlds agree, unless the lockstep is lost. -/
def Agree {α : Type} (L : Likeness) (V : α → α → Prop) (x x' : α × World) : Prop :=
  x.2.Lost L ∨ V x.1 x'.1 ∧ x.2.Alike L x'.2

variable {L : Likeness} {w w' : World}

theorem Evolves.lost (h : w.Evolves w') (hw : w.Lost L) : w'.Lost L :=
  L.lost h.raised hw

theorem alike_exact {w w' : World} : w.Alike .exact w' ↔ w' = w := by
  constructor
  · rintro ⟨h⟩
    obtain rfl : _ = w.signals := h
    rfl
  · rintro rfl
    exact .intro rfl

namespace Alike

theorem engine (h : w.Alike L w') : w'.engine = w.engine := by
  obtain ⟨h⟩ := h
  rfl

theorem schedule (h : w.Alike L w') : w'.schedule = w.schedule := by
  obtain ⟨h⟩ := h
  rfl

theorem check (h : w.Alike L w') (ctx : Context) :
    Agree L Eq (w.check ctx) (w'.check ctx) := by
  obtain ⟨h⟩ := h
  refine (L.tick h).imp id fun h => ⟨?_, .intro h⟩
  simp only [World.check, L.isCancelled h]

theorem newChild (h : w.Alike L w') (t : Token) :
    (w'.signals.newChild t).1 = (w.signals.newChild t).1 ∧
      Alike L { w with signals := (w.signals.newChild t).2 }
        { w' with signals := (w'.signals.newChild t).2 } := by
  obtain ⟨h⟩ := h
  refine ⟨?_, .intro (w := { w with signals := _ }) (L.newChild h t)⟩
  simp only [Signals.newChild, L.issued h]

theorem cancel (h : w.Alike L w') (t : Token) :
    Alike L { w with signals := w.signals.cancel t }
      { w' with signals := w'.signals.cancel t } := by
  obtain ⟨h⟩ := h
  exact .intro (w := { w with signals := _ }) (L.cancel h t)

theorem deriveContext (h : w.Alike L w') (ctx : Context) (t : Token) :
    Agree L Eq (w.deriveContext ctx t) (w'.deriveContext ctx t) := by
  have hchecked := h.check ctx
  rw [World.deriveContext, World.deriveContext]
  generalize w.check ctx = x, w'.check ctx = x' at hchecked
  obtain ⟨result, w₁⟩ := x
  obtain ⟨result', w₁'⟩ := x'
  obtain hlost | ⟨rfl, hw⟩ := hchecked
  · left
    cases result with
    | error e => exact hlost
    | ok _ => exact hlost
  · right
    dsimp only at hw
    obtain ⟨hsignals⟩ := hw
    cases result with
    | error e => exact ⟨rfl, .intro hsignals⟩
    | ok _ => exact ⟨rfl, .intro (w := { w₁ with engine := _ }) hsignals⟩

theorem spawn (h : w.Alike L w') :
    w'.spawn.1 = w.spawn.1 ∧ w.spawn.2.Alike L w'.spawn.2 := by
  obtain ⟨engine, signals, stats, schedule, refusals, spawns⟩ := w
  obtain ⟨h⟩ := h
  cases spawns with
  | nil => exact ⟨rfl, .intro h⟩
  | cons report spawns => exact ⟨rfl, .intro h⟩

theorem hire (h : w.Alike L w') (ctx : Context) (t : Token) (number : Nat) :
    Agree L Eq (w.hire ctx t number) (w'.hire ctx t number) := by
  have hderived := h.deriveContext ctx t
  rw [World.hire, World.hire]
  generalize w.deriveContext ctx t = x, w'.deriveContext ctx t = x' at hderived
  obtain ⟨result, w₁⟩ := x
  obtain ⟨result', w₁'⟩ := x'
  obtain hlost | ⟨rfl, hw⟩ := hderived
  · left
    cases result with
    | error e => exact hlost
    | ok _ =>
        have hspawned : w₁.spawn.2.Lost L := Evolves.lost (.single .spawn) hlost
        dsimp only
        generalize w₁.spawn = x at hspawned
        obtain ⟨_ | _, w₂⟩ := x
        · exact hspawned
        · exact hspawned
  · cases result with
    | error e => exact .inr ⟨rfl, hw⟩
    | ok context =>
        have hspawned := hw.spawn
        dsimp only at hspawned ⊢
        generalize w₁.spawn = x, w₁'.spawn = x' at hspawned
        obtain ⟨report, w₂⟩ := x
        obtain ⟨report', w₂'⟩ := x'
        obtain ⟨rfl, hw⟩ := hspawned
        cases report' with
        | none => exact .inr ⟨rfl, hw⟩
        | some report => exact .inr ⟨rfl, hw⟩

theorem stats (h : w.Alike L w') (f : Stats → Stats) :
    Alike L { w with stats := f w.stats } { w' with stats := f w'.stats } := by
  obtain ⟨h⟩ := h
  exact .intro (w := { w with stats := _ }) h

theorem recordRead (h : w.Alike L w') (n : Nat) :
    (w.recordRead n).Alike L (w'.recordRead n) :=
  h.stats fun stats => { stats with rowsRead := stats.rowsRead + n }

theorem recordStarted (h : w.Alike L w') : w.recordStarted.Alike L w'.recordStarted :=
  h.stats fun stats => { stats with workersStarted := stats.workersStarted + 1 }

theorem recordFinished (h : w.Alike L w') : w.recordFinished.Alike L w'.recordFinished :=
  h.stats fun stats => { stats with workersFinished := stats.workersFinished + 1 }

theorem draw (h : w.Alike L w') : w'.draw.1 = w.draw.1 ∧ w.draw.2.Alike L w'.draw.2 := by
  obtain ⟨engine, signals, stats, schedule, refusals, spawns⟩ := w
  obtain ⟨h⟩ := h
  cases schedule with
  | nil => exact ⟨rfl, .intro h⟩
  | cons choice schedule => exact ⟨rfl, .intro h⟩

theorem refuses (h : w.Alike L w') :
    w'.refuses.1 = w.refuses.1 ∧ w.refuses.2.Alike L w'.refuses.2 := by
  obtain ⟨engine, signals, stats, schedule, refusals, spawns⟩ := w
  obtain ⟨h⟩ := h
  cases refusals with
  | nil => exact ⟨rfl, .intro h⟩
  | cons refused refusals => exact ⟨rfl, .intro h⟩

theorem withEngine (h : w.Alike L w') (engine : Engine) :
    Alike L { w with engine } { w' with engine } := by
  obtain ⟨h⟩ := h
  exact .intro (w := { w with engine }) h

theorem rollback (h : w.Alike L w') (ctx : Context) :
    (w.rollback ctx).Alike L (w'.rollback ctx) := by
  rw [World.rollback, World.rollback, h.engine]
  exact h.withEngine _

theorem beginWork (h : w.Alike L w') (ctx : Context) :
    (w'.beginWork ctx).1 = (w.beginWork ctx).1 ∧
      (w.beginWork ctx).2.Alike L (w'.beginWork ctx).2 := by
  have hrefuses := h.refuses
  rw [World.beginWork, World.beginWork]
  generalize w.refuses = x, w'.refuses = x' at hrefuses
  obtain ⟨refused, w₁⟩ := x
  obtain ⟨refused', w₁'⟩ := x'
  obtain ⟨rfl, hw⟩ := hrefuses
  dsimp only at hw ⊢
  split
  · exact ⟨rfl, hw⟩
  · rw [hw.engine]
    cases w₁.engine.begin ctx.session ctx.config.mode with
    | ok engine => exact ⟨rfl, hw.withEngine engine⟩
    | error e => exact ⟨rfl, hw⟩

theorem commitWork (h : w.Alike L w') (ctx : Context) :
    (w'.commitWork ctx).1 = (w.commitWork ctx).1 ∧
      (w.commitWork ctx).2.Alike L (w'.commitWork ctx).2 := by
  have hrefuses := h.refuses
  rw [World.commitWork, World.commitWork]
  generalize w.refuses = x, w'.refuses = x' at hrefuses
  obtain ⟨refused, w₁⟩ := x
  obtain ⟨refused', w₁'⟩ := x'
  obtain ⟨rfl, hw⟩ := hrefuses
  dsimp only at hw ⊢
  split
  · exact ⟨rfl, hw.rollback ctx⟩
  · rw [hw.engine]
    cases w₁.engine.commit ctx.session with
    | ok engine => exact ⟨rfl, hw.withEngine engine⟩
    | error e => exact ⟨rfl, hw⟩

end Alike
end World
end OrderedQuery
