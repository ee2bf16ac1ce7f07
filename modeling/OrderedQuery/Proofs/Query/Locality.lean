import OrderedQuery.Proofs.Query.Holdings

/-!
# What the world does for a party

Looking at a token, deriving a context and beginning or ending a transaction concern nobody
but the party that does it, provided that it uses what it holds.
-/

namespace OrderedQuery

theorem List.lookup_filter_of_pos {α β : Type} [BEq α] [LawfulBEq α] {p : α → Bool} {a : α}
    (ha : p a = true) (l : List (α × β)) :
    (l.filter fun x => p x.1).lookup a = l.lookup a := by
  induction l with
  | nil => rfl
  | cons x l ih =>
      obtain ⟨b, c⟩ := x
      by_cases hab : a = b
      · subst hab
        rw [List.filter_cons_of_pos (by simpa using ha), List.lookup_cons_self,
          List.lookup_cons_self]
      · have hskip : ((b, c) :: l).lookup a = l.lookup a := by
          rw [List.lookup_cons, beq_false_of_ne hab]
        cases hb : p b with
        | false => rw [List.filter_cons_of_neg (by simp [hb]), ih, hskip]
        | true =>
            rw [List.filter_cons_of_pos (by simp [hb]), List.lookup_cons,
              beq_false_of_ne hab, ih, hskip]

/-- Nobody writes if all transactions only read. -/
theorem Engine.hasWriter_eq_false_iff {e : Engine} :
    e.hasWriter = false ↔ ∀ a ∈ e.active, a.2.mode = .readOnly := by
  rw [hasWriter, List.any_eq_false]
  refine forall₂_congr fun a _ => ?_
  cases hmode : a.2.mode <;> simp [hmode]

theorem World.spawn_engine (w : World) : w.spawn.2.engine = w.engine := by
  unfold spawn
  split <;> rfl

namespace Holdings

variable {h : Holdings} {ctx : Context} {w w' : World}

theorem Hosts.session (hh : h.Hosts ctx w) : h.sessions ctx.session = true :=
  (hh.covers.mono (h.upto_le w)).session

theorem transaction?_only {s : SessionId} (hs : h.sessions s = true) (w : World) :
    (w.only h).engine.transaction? s = w.engine.transaction? s :=
  List.lookup_filter_of_pos hs w.engine.active

theorem inTransaction_only {s : SessionId} (hs : h.sessions s = true) (w : World) :
    (w.only h).engine.inTransaction s = w.engine.inTransaction s := by
  rw [Engine.inTransaction, transaction?_only hs, Engine.inTransaction]

theorem view_only {s : SessionId} (hs : h.sessions s = true) (w : World) :
    (w.only h).engine.view s = w.engine.view s := by
  rw [Engine.view, transaction?_only hs, Engine.view]
  rfl

/-- Writers among the others would be the only difference. -/
theorem Fits.hasWriter_only (hf : h.Fits w) (he : h.exclusive = true) :
    (w.only h).engine.hasWriter = w.engine.hasWriter := by
  rw [Bool.eq_iff_iff]
  simp only [Engine.hasWriter, World.only, List.any_eq_true, List.mem_filter]
  constructor
  · rintro ⟨a, ⟨ha, -⟩, hmode⟩
    exact ⟨a, ha, hmode⟩
  · rintro ⟨a, ha, hmode⟩
    refine ⟨a, ⟨ha, ?_⟩, hmode⟩
    cases howned : h.sessions a.1 with
    | true => rfl
    | false =>
        rw [hf.exclusive he a ha howned] at hmode
        cases hmode

theorem Hosts.isCancelled_only (hh : h.Hosts ctx w) {t : Token} (ht : h.Watches t) :
    (w.only h).signals.isCancelled t = w.signals.isCancelled t := by
  rw [Bool.eq_iff_iff]
  simp only [Signals.isCancelled, World.only, List.any_eq_true, List.mem_filter,
    decide_eq_true_eq]
  constructor
  · rintro ⟨f, hf, hraised, -⟩
    exact ⟨f, hf, hraised⟩
  · rintro ⟨f, hf, hraised⟩
    rcases ht f hf with hown | hshared
    · exact ⟨f, hf, hraised, hown⟩
    · exact absurd hraised (hh.fits.shared f hshared).2

theorem Fits.check_eq (hf : h.Fits w) (ctx : Context) :
    w.check ctx = (if w.signals.isCancelled ctx.token then .error .cancelled else .ok (), w) := by
  have htick : w.signals.tick = w.signals := by rw [Signals.tick, hf.silent]
  simp only [World.check, htick]

theorem Hosts.check (hh : h.Hosts ctx w) :
    Within h w (fun _ => True) (w.check ctx) ((w.only h).check ctx) := by
  have htoken := (hh.covers.mono (h.upto_le w)).token
  have htick : (w.only h).signals.tick = (w.only h).signals := by
    rw [Signals.tick, World.only, hh.fits.silent]
  rw [hh.fits.check_eq]
  refine ⟨?_, hh.fits.keeps_refl, trivial⟩
  simp only [World.check, htick, hh.isCancelled_only htoken]
  rfl

/-- A new session is one that is yet to be handed out. -/
theorem Fits.derive (hf : h.Fits w) :
    h.Keeps w { w with engine := w.engine.derive.2 } where
  fits := ⟨⟨fun a ha => Nat.lt_succ_of_lt (hf.sound.sessions a ha), hf.sound.flags⟩, hf.silent,
    fun s hs => hf.sessions s (Nat.le_of_succ_le hs), hf.flags, hf.shared, hf.exclusive⟩
  sessions := Nat.le_succ _
  flags := Nat.le_refl _
  schedule := Nat.le_refl _
  active := rfl
  raised := rfl
  still _ hs := ⟨hs.committed, hs.active⟩

theorem Hosts.deriveContext (hh : h.Hosts ctx w) {t : Token} (ht : (h.upto w).Watches t) :
    Within h w (fun x => ∀ c, x.1 = .ok c → (h.upto x.2).Covers c)
      (w.deriveContext ctx t) ((w.only h).deriveContext ctx t) := by
  obtain ⟨honly, hkeeps, -⟩ := hh.check
  rw [World.deriveContext, World.deriveContext, honly]
  generalize w.check ctx = x at hkeeps
  obtain ⟨result, w₁⟩ := x
  have hkeeps₁ : h.Keeps w w₁ := hkeeps
  cases result with
  | error e => exact ⟨rfl, hkeeps₁, fun _ hc => nomatch hc⟩
  | ok u =>
      have hderive := hkeeps₁.fits.derive
      refine ⟨rfl, hkeeps₁.trans hderive, ?_⟩
      rintro c hc
      obtain rfl := Except.ok.inj hc
      have hmode := (hh.covers.mono (h.upto_le w)).mode
      refine ⟨?_, (ht.mono hkeeps₁.upto_le).mono hderive.upto_le, hmode⟩
      -- the new session is the one that comes next
      have hnext : h.sessions w₁.engine.issued = true :=
        hkeeps₁.fits.sessions _ (Nat.le_refl _)
      simp [upto, hnext, Engine.derive]

/-- A new token has a flag that is yet to be handed out. -/
theorem Fits.newChild (hf : h.Fits w) (t : Token) :
    h.Keeps w { w with signals := (w.signals.newChild t).2 } where
  fits := ⟨⟨hf.sound.sessions, fun f hr => Nat.lt_succ_of_lt (hf.sound.flags f hr)⟩, hf.silent,
    hf.sessions, fun f hr => hf.flags f (Nat.le_of_succ_le hr), hf.shared, hf.exclusive⟩
  sessions := Nat.le_refl _
  flags := Nat.le_succ _
  schedule := Nat.le_refl _
  active := rfl
  raised := rfl
  still _ hs := ⟨hs.committed, hs.active⟩

/-- The party cancels a token of its own. -/
theorem Fits.cancel (hf : h.Fits w) {t : Token}
    (ht : ∀ f ∈ t.flags.head?, (h.upto w).flags f = true) :
    Within h w (fun _ => True) { w with signals := w.signals.cancel t }
      { w.only h with signals := (w.only h).signals.cancel t } := by
  obtain ⟨flags⟩ := t
  cases flags with
  | nil => exact ⟨rfl, hf.keeps_refl, trivial⟩
  | cons flag rest =>
      have hown := ht flag rfl
      simp only [upto, Bool.and_eq_true, decide_eq_true_eq] at hown
      obtain ⟨hflag, hissued⟩ := hown
      refine ⟨?_, ⟨⟨⟨hf.sound.sessions, ?_⟩, hf.silent, hf.sessions, hf.flags, ?_, hf.exclusive⟩,
        Nat.le_refl _, Nat.le_refl _, Nat.le_refl _, rfl, ?_,
        fun _ hs => ⟨hs.committed, hs.active⟩⟩, trivial⟩
      · simp [Carries.only, World.only, Signals.cancel, hflag]
      · rintro f hf'
        rcases List.mem_cons.mp hf' with rfl | hf'
        · exact hissued
        · exact hf.sound.flags f hf'
      · intro f hshared
        obtain ⟨hnot, hquiet⟩ := hf.shared f hshared
        refine ⟨hnot, ?_⟩
        intro hf'
        rcases List.mem_cons.mp hf' with rfl | hf'
        · rw [hflag] at hnot
          cases hnot
        · exact hquiet hf'
      · exact List.filter_cons_of_neg (by simp [hflag])

theorem Fits.draw (hf : h.Fits w) :
    Within h w (fun _ => True) w.draw (w.only h).draw := by
  obtain ⟨engine, signals, stats, schedule, refusals, spawns⟩ := w
  cases schedule with
  | nil => exact ⟨rfl, hf.keeps_refl, trivial⟩
  | cons choice schedule =>
      exact ⟨rfl, hf.keeps_of_eq rfl rfl (Nat.le_succ _), trivial⟩

theorem Fits.refuses (hf : h.Fits w) :
    Within h w (fun _ => True) w.refuses (w.only h).refuses := by
  obtain ⟨engine, signals, stats, schedule, refusals, spawns⟩ := w
  cases refusals with
  | nil => exact ⟨rfl, hf.keeps_refl, trivial⟩
  | cons refused refusals =>
      exact ⟨rfl, hf.keeps_of_eq rfl rfl (Nat.le_refl _), trivial⟩

theorem Fits.spawn (hf : h.Fits w) :
    Within h w (fun _ => True) w.spawn (w.only h).spawn := by
  obtain ⟨engine, signals, stats, schedule, refusals, spawns⟩ := w
  cases spawns with
  | nil => exact ⟨rfl, hf.keeps_refl, trivial⟩
  | cons report spawns =>
      exact ⟨rfl, hf.keeps_of_eq rfl rfl (Nat.le_refl _), trivial⟩

theorem Hosts.hire (hh : h.Hosts ctx w) {t : Token} (ht : (h.upto w).Watches t) (number : Nat) :
    Within h w (fun x => ∀ c, x.1 = .ok c → (h.upto x.2).Covers c)
      (w.hire ctx t number) ((w.only h).hire ctx t number) := by
  obtain ⟨honly, hkeeps, hcovers⟩ := hh.deriveContext ht
  rw [World.hire, World.hire, honly]
  generalize w.deriveContext ctx t = x at hkeeps hcovers
  obtain ⟨result, w₁⟩ := x
  have hkeeps₁ : h.Keeps w w₁ := hkeeps
  cases result with
  | error e => exact ⟨rfl, hkeeps₁, fun _ hc => nomatch hc⟩
  | ok context =>
      obtain ⟨honly, hkeeps, -⟩ := hkeeps₁.fits.spawn
      simp only [Carries.only] at honly ⊢
      rw [honly]
      generalize w₁.spawn = x at hkeeps
      obtain ⟨report, w₂⟩ := x
      have hkeeps₂ : h.Keeps w₁ w₂ := hkeeps
      cases report with
      | some report => exact ⟨rfl, hkeeps₁.trans hkeeps₂, fun _ hc => nomatch hc⟩
      | none =>
          refine ⟨rfl, hkeeps₁.trans hkeeps₂, ?_⟩
          rintro c hc
          obtain rfl := Except.ok.inj hc
          exact (hcovers context rfl).mono hkeeps₂.upto_le

/-! ## Transactions -/

/-- A session forgets its transaction. -/
theorem Fits.release (hf : h.Fits w) {s : SessionId} (hs : h.sessions s = true) :
    Within h w (fun _ => True) { w with engine := w.engine.release s }
      { w.only h with engine := (w.only h).engine.release s } := by
  have hsub : ∀ a ∈ (w.engine.release s).active, a ∈ w.engine.active := fun a ha =>
    (List.mem_filter.mp ha).1
  refine ⟨?_, ⟨⟨⟨fun a ha => hf.sound.sessions a (hsub a ha), hf.sound.flags⟩, hf.silent,
    hf.sessions, hf.flags, hf.shared, fun he a ha => hf.exclusive he a (hsub a ha)⟩,
    Nat.le_refl _, Nat.le_refl _, Nat.le_refl _, ?_, rfl,
    fun _ hstill => ⟨hstill.committed, fun a ha => hstill.active a (hsub a ha)⟩⟩, trivial⟩
  · simp only [Carries.only, World.only, Engine.release, List.filter_filter, Bool.and_comm]
  · simp only [Carries.world, id, Engine.release, List.filter_filter]
    refine List.filter_congr ?_
    intro a _
    cases hother : h.sessions a.1 with
    | true => rfl
    | false =>
        have hne : a.1 ≠ s := by
          rintro rfl
          rw [hs] at hother
          cases hother
        simp [hne]

theorem Hosts.rollback (hh : h.Hosts ctx w) :
    Within h w (fun _ => True) (w.rollback ctx) ((w.only h).rollback ctx) :=
  hh.fits.release hh.session

/-- A session gets a transaction. -/
theorem Fits.enter (hf : h.Fits w) {s : SessionId} (hs : (h.upto w).sessions s = true)
    (mode : Mode) :
    let entered (w : World) : World :=
      { w with
        engine := { w.engine with
          active := w.engine.active ++ [(s, ⟨mode, w.engine.committed⟩)] } }
    Within h w (fun _ => True) (entered w) (entered (w.only h)) := by
  intro entered
  simp only [upto, Bool.and_eq_true, decide_eq_true_eq] at hs
  obtain ⟨hown, hissued⟩ := hs
  have hmem : ∀ a ∈ (entered w).engine.active,
      a ∈ w.engine.active ∨ a = (s, ⟨mode, w.engine.committed⟩) := by
    intro a ha
    rcases List.mem_append.mp ha with ha | ha
    · exact .inl ha
    · exact .inr (List.mem_singleton.mp ha)
  have hsound : (entered w).Sound := by
    refine ⟨?_, hf.sound.flags⟩
    intro a ha
    rcases hmem a ha with ha | rfl
    · exact hf.sound.sessions a ha
    · exact hissued
  have hexclusive : h.exclusive = true → ∀ a ∈ (entered w).engine.active,
      h.sessions a.1 = false → a.2.mode = .readOnly := by
    intro he a ha hother
    rcases hmem a ha with ha | rfl
    · exact hf.exclusive he a ha hother
    · rw [hown] at hother
      cases hother
  have hstill : ∀ store, h.Still store w → h.Still store (entered w) := by
    intro store hw
    refine ⟨hw.committed, ?_⟩
    intro a ha hmine
    rcases hmem a ha with ha | rfl
    · exact hw.active a ha hmine
    · exact hw.committed
  have hactive : (entered w).engine.active.filter (fun a => !h.sessions a.1) =
      w.engine.active.filter fun a => !h.sessions a.1 := by
    simp [entered, hown]
  refine ⟨?_, ⟨⟨hsound, hf.silent, hf.sessions, hf.flags, hf.shared, hexclusive⟩,
    Nat.le_refl _, Nat.le_refl _, Nat.le_refl _, hactive, rfl, hstill⟩, trivial⟩
  simp [Carries.only, entered, World.only, hown]

theorem Hosts.beginWork (hh : h.Hosts ctx w) :
    Within h w (fun _ => True) (w.beginWork ctx) ((w.only h).beginWork ctx) := by
  obtain ⟨honly, hkeeps, -⟩ := hh.fits.refuses
  rw [World.beginWork, World.beginWork, honly]
  generalize w.refuses = x at hkeeps
  obtain ⟨refused, w₁⟩ := x
  have hkeeps₁ : h.Keeps w w₁ := hkeeps
  have hh₁ := hh.keeps hkeeps₁
  cases refused with
  | true => exact ⟨rfl, hkeeps₁, trivial⟩
  | false =>
      simp only [Carries.only, Engine.begin, inTransaction_only hh₁.session]
      cases w₁.engine.inTransaction ctx.session with
      | true => exact ⟨rfl, hkeeps₁, trivial⟩
      | false =>
          obtain ⟨hentered, hkeeps₂, -⟩ :=
            hh₁.fits.enter hh₁.covers.session ctx.config.mode
          exact ⟨congrArg (Prod.mk _) hentered, hkeeps₁.trans hkeeps₂, trivial⟩

/-- What is committed is what the transaction has seen from the start. -/
theorem Fits.store (hf : h.Fits w) {s : SessionId} (hs : h.sessions s = true)
    {t : Transaction} (ht : w.engine.transaction? s = some t) :
    let stored (w : World) : World :=
      { w with engine := { w.engine.release s with committed := t.store } }
    Within h w (fun _ => True) (stored w) (stored (w.only h)) := by
  intro stored
  obtain ⟨hreleased, hkeeps, -⟩ := hf.release hs
  have hstill : ∀ store, h.Still store w → h.Still store (stored w) := by
    intro store hw
    obtain ⟨_, _, heq, -⟩ := List.lookup_eq_some_iff.mp ht
    have hmem : (s, t) ∈ w.engine.active := by
      rw [heq]
      exact List.mem_append_right _ List.mem_cons_self
    exact ⟨hw.active _ hmem hs, (hkeeps.still store hw).active⟩
  have hfits := hkeeps.fits
  refine ⟨?_, ⟨⟨⟨hfits.sound.sessions, hfits.sound.flags⟩, hfits.silent, hfits.sessions,
    hfits.flags, hfits.shared, hfits.exclusive⟩, Nat.le_refl _, Nat.le_refl _, Nat.le_refl _,
    hkeeps.active, rfl, hstill⟩, trivial⟩
  exact congrArg (fun w : World => { w with engine := { w.engine with committed := t.store } })
    hreleased

theorem Hosts.commitWork (hh : h.Hosts ctx w) :
    Within h w (fun _ => True) (w.commitWork ctx) ((w.only h).commitWork ctx) := by
  obtain ⟨honly, hkeeps, -⟩ := hh.fits.refuses
  rw [World.commitWork, World.commitWork, honly]
  generalize w.refuses = x at hkeeps
  obtain ⟨refused, w₁⟩ := x
  have hkeeps₁ : h.Keeps w w₁ := hkeeps
  have hh₁ := hh.keeps hkeeps₁
  obtain ⟨hreleased, hkeeps₂, -⟩ := hh₁.fits.release hh₁.session
  cases refused with
  | true => exact ⟨congrArg (Prod.mk _) hreleased, hkeeps₁.trans hkeeps₂, trivial⟩
  | false =>
      simp only [Carries.only, Engine.commit, transaction?_only hh₁.session]
      cases htx : w₁.engine.transaction? ctx.session with
      | none => exact ⟨rfl, hkeeps₁, trivial⟩
      | some t =>
          obtain ⟨mode, store⟩ := t
          cases mode with
          | readOnly => exact ⟨congrArg (Prod.mk _) hreleased, hkeeps₁.trans hkeeps₂, trivial⟩
          | readWrite =>
              obtain ⟨hstored, hkeeps₃, -⟩ := hh₁.fits.store hh₁.session htx
              exact ⟨congrArg (Prod.mk _) hstored, hkeeps₁.trans hkeeps₃, trivial⟩

end Holdings
end OrderedQuery
