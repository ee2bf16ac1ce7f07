import OrderedQuery.Query.Context

/-!
# What belongs to one party of a query

The world hands out sessions and flags of cancellation by their numbers.  A party, such as a
worker together with the workers it starts itself, uses some of them and leaves the others
alone.  `Holdings` says which ones it may use, those to be handed out later included, and
`World.only` is the world in which nobody else has left anything behind.

`Within` says of what an operation leads to that nothing has changed for anybody else, and
that the same would have happened in the world without the others.
-/

namespace OrderedQuery

/-- What a party may use. -/
structure Holdings where
  sessions : Nat → Bool
  flags : Nat → Bool
  /-- Flags that are looked at, but belong to somebody else. -/
  shared : Nat → Bool
  /-- Nobody else writes. -/
  exclusive : Bool

/-- The world without what others have left in it. -/
def World.only (w : World) (h : Holdings) : World :=
  { w with
    engine := { w.engine with active := w.engine.active.filter fun a => h.sessions a.1 }
    signals := { w.signals with raised := w.signals.raised.filter h.flags } }

/-- What is in use has been handed out. -/
structure World.Sound (w : World) : Prop where
  sessions : ∀ a ∈ w.engine.active, a.1 < w.engine.issued
  flags : ∀ f ∈ w.signals.raised, f < w.signals.issued

namespace Holdings

/-- The holdings as far as they have been handed out. -/
def upto (h : Holdings) (w : World) : Holdings :=
  { h with
    sessions := fun s => h.sessions s && decide (s < w.engine.issued)
    flags := fun f => h.flags f && decide (f < w.signals.issued) }

instance : LE Holdings where
  le h h' := (∀ s, h.sessions s = true → h'.sessions s = true) ∧
    (∀ f, h.flags f = true → h'.flags f = true) ∧
    (∀ f, h.shared f = true → h'.shared f = true) ∧
    (h.exclusive = true → h'.exclusive = true)

/-- The token is watched by its holder. -/
def Watches (h : Holdings) (t : Token) : Prop :=
  ∀ f ∈ t.flags, h.flags f = true ∨ h.shared f = true

/-- The context can be used. -/
structure Covers (h : Holdings) (ctx : Context) : Prop where
  session : h.sessions ctx.session = true
  token : h.Watches ctx.token
  mode : ctx.config.mode = .readOnly ∨ h.exclusive = true

/-- The holdings contain whatever is yet to be handed out, and nothing disturbs the party. -/
structure Fits (h : Holdings) (w : World) : Prop where
  sound : w.Sound
  silent : w.signals.alarm = none
  sessions : ∀ s, w.engine.issued ≤ s → h.sessions s = true
  flags : ∀ f, w.signals.issued ≤ f → h.flags f = true
  shared : ∀ f, h.shared f = true → h.flags f = false ∧ f ∉ w.signals.raised
  exclusive : h.exclusive = true →
    ∀ a ∈ w.engine.active, h.sessions a.1 = false → a.2.mode = .readOnly

/-- The store is `store`, and the party has not written to it. -/
structure Still (h : Holdings) (store : Store) (w : World) : Prop where
  committed : w.engine.committed = store
  active : ∀ a ∈ w.engine.active, h.sessions a.1 = true → a.2.store = store

/-- From one world to a later one, only the party has done something. -/
structure Keeps (h : Holdings) (w w' : World) : Prop where
  fits : h.Fits w'
  sessions : w.engine.issued ≤ w'.engine.issued
  flags : w.signals.issued ≤ w'.signals.issued
  schedule : w'.schedule.length ≤ w.schedule.length
  active : w'.engine.active.filter (fun a => !h.sessions a.1) =
    w.engine.active.filter fun a => !h.sessions a.1
  raised : w'.signals.raised.filter (fun f => !h.flags f) =
    w.signals.raised.filter fun f => !h.flags f
  still : ∀ store, h.Still store w → h.Still store w'

/-- A context that can be used in a world. -/
structure Hosts (h : Holdings) (ctx : Context) (w : World) : Prop where
  fits : h.Fits w
  covers : (h.upto w).Covers ctx

variable {h h' : Holdings} {ctx : Context} {w w' w'' : World}

theorem Watches.mono {t : Token} (hw : h.Watches t) (hle : h ≤ h') : h'.Watches t := by
  intro f hf
  rcases hw f hf with hown | hshared
  · exact .inl (hle.2.1 f hown)
  · exact .inr (hle.2.2.1 f hshared)

theorem Covers.mono (hc : h.Covers ctx) (hle : h ≤ h') : h'.Covers ctx :=
  ⟨hle.1 _ hc.session, hc.token.mono hle, hc.mode.imp_right hle.2.2.2⟩

theorem upto_le (h : Holdings) (w : World) : h.upto w ≤ h := by
  refine ⟨?_, ?_, fun _ hf => hf, fun he => he⟩
  · intro s hs
    exact (Bool.and_eq_true_iff.mp hs).1
  · intro f hf
    exact (Bool.and_eq_true_iff.mp hf).1

theorem upto_mono (h : Holdings) (hsessions : w.engine.issued ≤ w'.engine.issued)
    (hflags : w.signals.issued ≤ w'.signals.issued) : h.upto w ≤ h.upto w' := by
  refine ⟨?_, ?_, fun _ hf => hf, fun he => he⟩
  · intro s hs
    simp only [upto, Bool.and_eq_true, decide_eq_true_eq] at hs ⊢
    exact ⟨hs.1, Nat.lt_of_lt_of_le hs.2 hsessions⟩
  · intro f hf
    simp only [upto, Bool.and_eq_true, decide_eq_true_eq] at hf ⊢
    exact ⟨hf.1, Nat.lt_of_lt_of_le hf.2 hflags⟩

theorem Fits.keeps_refl (hf : h.Fits w) : h.Keeps w w :=
  ⟨hf, Nat.le_refl _, Nat.le_refl _, Nat.le_refl _, rfl, rfl, fun _ hs => hs⟩

theorem Keeps.trans (h₁ : h.Keeps w w') (h₂ : h.Keeps w' w'') : h.Keeps w w'' where
  fits := h₂.fits
  sessions := Nat.le_trans h₁.sessions h₂.sessions
  flags := Nat.le_trans h₁.flags h₂.flags
  schedule := Nat.le_trans h₂.schedule h₁.schedule
  active := h₂.active.trans h₁.active
  raised := h₂.raised.trans h₁.raised
  still store hs := h₂.still store (h₁.still store hs)

theorem Keeps.upto_le (hk : h.Keeps w w') : h.upto w ≤ h.upto w' :=
  h.upto_mono hk.sessions hk.flags

theorem Hosts.keeps (hh : h.Hosts ctx w) (hk : h.Keeps w w') : h.Hosts ctx w' :=
  ⟨hk.fits, hh.covers.mono hk.upto_le⟩

/-- Neither the schedule nor the statistics belong to anybody. -/
theorem Fits.keeps_of_eq (hf : h.Fits w) (hengine : w'.engine = w.engine)
    (hsignals : w'.signals = w.signals) (hschedule : w'.schedule.length ≤ w.schedule.length) :
    h.Keeps w w' := by
  obtain ⟨engine, signals, stats, schedule, refusals, spawns⟩ := w'
  obtain rfl : engine = w.engine := hengine
  obtain rfl : signals = w.signals := hsignals
  exact ⟨⟨⟨hf.sound.1, hf.sound.2⟩, hf.silent, hf.sessions, hf.flags, hf.shared, hf.exclusive⟩,
    Nat.le_refl _, Nat.le_refl _, hschedule, rfl, rfl, fun _ hs => ⟨hs.committed, hs.active⟩⟩

end Holdings

/-! ## Results that carry a world -/

/-- A result of an operation, with the world it leaves behind. -/
class Carries (X : Type) where
  world : X → World
  only : X → Holdings → X

instance : Carries World := ⟨id, World.only⟩

instance {α X : Type} [Carries X] : Carries (α × X) :=
  ⟨fun x => Carries.world x.2, fun x h => (x.1, Carries.only x.2 h)⟩

/-- Nobody outside of `h` is concerned: the others do not notice that `w` has given way to
the world of `x`, and without them `y` is what there would have been. -/
structure Within {X : Type} [Carries X] (h : Holdings) (w : World) (P : X → Prop)
    (x y : X) : Prop where
  only : y = Carries.only x h
  keeps : h.Keeps w (Carries.world x)
  holds : P x

namespace Within

variable {X : Type} [Carries X] {h : Holdings} {w w' : World} {P : X → Prop} {x y : X}

theorem after (hx : Within h w' P x y) (hk : h.Keeps w w') : Within h w P x y :=
  ⟨hx.only, hk.trans hx.keeps, hx.holds⟩

end Within

end OrderedQuery
