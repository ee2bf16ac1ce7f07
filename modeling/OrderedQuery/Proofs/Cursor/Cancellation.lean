import OrderedQuery.Proofs.Cursor.Evolution
import OrderedQuery.Proofs.Cursor.Protocol
import OrderedQuery.Proofs.Query.Likeness

/-!
# Cursors and the cancellation of their context

A context can be cancelled at any poll.  Up to that poll everything goes as if nobody ever
cancelled, which is what `Likeness.calm` expresses.  Some states of a cursor have no use for the
world any more, such as that of a sort that has taken its input: they are silent, and go on as if
nothing had happened.  `Machine.Heeds` says what becomes of all others once the context has been
cancelled.  The next call fails; and when the context is cancelled while a call is made, that call
fails or returns a row, but then the state it leaves behind is not silent.  In no case does the run
seem to have come to its end.
-/

namespace OrderedQuery

/-- Signals that differ in the alarm, which is about one token, look alike until the token is
cancelled. -/
def Likeness.calm (t : Token) : Likeness where
  Like s s' := s' = { s with alarm := none } ∧ ∀ polls f, s.alarm = some (polls, f) → f ∈ t.flags
  Lost s := s.isCancelled t = true
  issued h := by rw [h.1]
  isCancelled h t := by rw [h.1]; rfl
  tick := by
    rintro ⟨raised, issued, alarm⟩ s' ⟨rfl, halarm⟩
    match alarm with
    | none => exact .inr ⟨rfl, nofun⟩
    | some (0, f) =>
        left
        exact List.any_eq_true.mpr ⟨f, halarm 0 f rfl, decide_eq_true List.mem_cons_self⟩
    | some (polls + 1, f) =>
        right
        refine ⟨rfl, ?_⟩
        rintro polls' f' heq
        obtain ⟨rfl, rfl⟩ := Prod.mk.inj (Option.some.inj heq)
        exact halarm _ _ rfl
  newChild h t := ⟨by rw [h.1]; rfl, h.2⟩
  cancel := by
    rintro s s' ⟨rfl, halarm⟩ t'
    rw [Signals.cancel, Signals.cancel]
    split
    · exact ⟨rfl, halarm⟩
    · exact ⟨rfl, halarm⟩
  lost h ht := Signals.isCancelled_mono h ht

namespace World

/-- The context has been cancelled. -/
def Cancelled (ctx : Context) (w : World) : Prop :=
  w.signals.isCancelled ctx.token = true

/-- The flags of the token of a context have been handed out. -/
def Knows (ctx : Context) (w : World) : Prop :=
  ∀ f ∈ ctx.token.flags, f < w.signals.issued

variable {ctx : Context} {w w' : World}

theorem not_cancelled_of_check (h : w.check ctx = (.ok (), w')) : ¬ w'.Cancelled ctx := by
  unfold check at h
  dsimp only at h
  split at h
  · cases h
  · rename_i hlive
    cases h
    exact hlive

end World

/-- An operation does not seem to have come to a good end: it fails, or leaves a state behind that
is not silent. -/
def Outcome.Spoilt {σ α : Type} (Silent : σ → Prop) (o : Outcome σ α) : Prop :=
  ∀ a, o.result = .ok a → ¬ Silent o.state

/-- No end of the rows is reported, and the state that is left behind is not silent. -/
def Outcome.Interrupted {σ : Type} (Silent : σ → Prop) (o : Outcome σ (Option Row)) : Prop :=
  ∀ row, o.result = .ok row → row.isSome = true ∧ ¬ Silent o.state

/-- A call that takes no notice of the world.  If it returns a row, the state it leaves behind is
silent. -/
def SilentCall {σ : Type} (Silent : σ → Prop) (call : World → Outcome σ (Option Row)) : Prop :=
  ∃ result t, (∀ row, result = .ok (some row) → Silent t) ∧ ∀ w, call w = ⟨result, t, w⟩

/-- How a cursor meets the cancellation of its context.  Its sound states are those that opening it
can lead to. -/
structure Machine.Heeds {σ : Type} (m : Machine σ) (ctx : Context) (Sound Silent : σ → Prop) :
    Prop where
  evolving : m.Evolving
  next_sound : ∀ {s}, Sound s → ∀ w, Sound (m.next ctx s w).state
  next_of_silent : ∀ {s}, Silent s → SilentCall Silent fun w => m.next ctx s w
  pending_of_silent : ∀ {s}, Silent s → ∀ w w', m.pending ctx s w' = m.pending ctx s w
  next_of_cancelled : ∀ {s}, ¬ Silent s → ∀ {w : World}, w.Cancelled ctx →
    ∃ e, (m.next ctx s w).result = .error e
  next_interrupted : ∀ {s}, Sound s → ∀ {w : World}, ¬ w.Cancelled ctx →
    (m.next ctx s w).world.Cancelled ctx → (m.next ctx s w).Interrupted Silent
  openRun_sound : ∀ s {w : World}, w.Knows ctx → (m.openRun ctx s w).result = .ok () →
    Sound (m.openRun ctx s w).state
  openRun_of_cancelled : ∀ s {w : World}, w.Cancelled ctx →
    (m.openRun ctx s w).Spoilt Silent ∨
      ∃ t, Silent t ∧ ∀ w, m.openRun ctx s w = ⟨.ok (), t, w⟩
  openRun_interrupted : ∀ s {w : World}, w.Knows ctx → ¬ w.Cancelled ctx →
    (m.openRun ctx s w).world.Cancelled ctx → (m.openRun ctx s w).Spoilt Silent

variable {ctx : Context}

namespace Outcome

variable {σ α : Type} {Silent : σ → Prop} {o : Outcome σ α}

theorem Spoilt.of_error {e : QueryError} {s : σ} {w : World} :
    Spoilt Silent (⟨.error e, s, w⟩ : Outcome σ α) := nofun

theorem Spoilt.of_state {result : Except QueryError α} {s : σ} {w : World} (h : ¬ Silent s) :
    Spoilt Silent (⟨result, s, w⟩ : Outcome σ α) := fun _ _ => h

theorem Interrupted.of_error {e : QueryError} {s : σ} {w : World} :
    Interrupted Silent (⟨.error e, s, w⟩ : Outcome σ (Option Row)) := nofun

theorem Interrupted.of_row {row : Row} {s : σ} {w : World} (h : ¬ Silent s) :
    Interrupted Silent (⟨.ok (some row), s, w⟩ : Outcome σ (Option Row)) := by
  rintro _ ⟨⟩
  exact ⟨rfl, h⟩

end Outcome

namespace SilentCall

variable {σ : Type} {Silent : σ → Prop}

theorem error (e : QueryError) (t : σ) : SilentCall Silent fun w => ⟨.error e, t, w⟩ :=
  ⟨.error e, t, nofun, fun _ => rfl⟩

theorem done (t : σ) : SilentCall Silent fun w => ⟨.ok none, t, w⟩ :=
  ⟨.ok none, t, nofun, fun _ => rfl⟩

theorem row (row : Row) {t : σ} (h : Silent t) :
    SilentCall Silent fun w => ⟨.ok (some row), t, w⟩ :=
  ⟨.ok (some row), t, fun _ _ => h, fun _ => rfl⟩

end SilentCall

/-! ## Operators without input -/

namespace ValuesCursor

/-- Given rows are handed out whatever happens. -/
theorem heeds (rows : List Row) (ctx : Context) :
    (machine rows).Heeds ctx (fun _ => True) fun s => s.base.state = .active where
  evolving := evolving rows
  next_sound _ _ := trivial
  next_of_silent {s} hactive := by
    dsimp only [machine]
    simp only [next, CursorBase.checkNext_eq_ok hactive]
    cases rows[s.run]? with
    | none => exact .done _
    | some row => exact .row row hactive
  pending_of_silent {s} hactive _ _ := by
    dsimp only [machine]
  next_of_cancelled {s} hactive w _ := by
    dsimp only [machine]
    rw [next, CursorBase.checkNext_eq_error hactive]
    exact ⟨_, rfl⟩
  next_interrupted {s} _ w hlive hcancelled := by
    dsimp only [machine, next] at hcancelled
    split at hcancelled <;> exact absurd hcancelled hlive
  openRun_sound _ _ _ _ := trivial
  openRun_of_cancelled s w _ := by
    dsimp only [machine]
    by_cases hidle : s.base.state = .idle
    · simp only [openRun, CursorBase.beginOpen_eq_ok hidle]
      exact .inr ⟨_, rfl, fun w => rfl⟩
    · rw [openRun, CursorBase.beginOpen_eq_error hidle]
      exact .inl .of_error
  openRun_interrupted s w _ hlive hcancelled := by
    dsimp only [machine, openRun] at hcancelled
    split at hcancelled <;> exact absurd hcancelled hlive

end ValuesCursor

namespace IndexScanCursor

variable (scan : IndexScan)

/-- An open scan whose context has been cancelled returns neither a row nor the end of its rows. -/
theorem next_of_cancelled {s : State} (hactive : s.base.state = .active) {w : World}
    (hcancelled : w.Cancelled ctx) : (next scan ctx s w).result = .error .cancelled := by
  have hchecked := World.check_eq_error hcancelled
  rw [next, CursorBase.checkNext_eq_ok hactive]
  generalize w.check ctx = x at hchecked
  obtain ⟨result, w'⟩ := x
  obtain rfl : result = .error .cancelled := hchecked
  rfl

/-- A scan looks at its token in every call. -/
theorem heeds (ctx : Context) : (machine scan).Heeds ctx (fun _ => True) fun _ => False where
  evolving := evolving scan
  next_sound _ _ := trivial
  next_of_silent h := h.elim
  pending_of_silent h := h.elim
  next_of_cancelled {s} _ w hcancelled := by
    by_cases hactive : s.base.state = .active
    · exact ⟨_, next_of_cancelled scan hactive hcancelled⟩
    · dsimp only [machine]
      rw [next, CursorBase.checkNext_eq_error hactive]
      exact ⟨_, rfl⟩
  next_interrupted {s} _ w hlive hcancelled := by
    dsimp only [machine] at hcancelled ⊢
    rw [next] at hcancelled ⊢
    split
    · exact .of_error
    · rename_i hactive
      rw [hactive] at hcancelled
      have hchecked {w'} : w.check ctx = (.ok (), w') → ¬ w'.Cancelled ctx :=
        World.not_cancelled_of_check
      generalize w.check ctx = x at hchecked hcancelled
      obtain ⟨_ | _, w'⟩ := x
      · exact .of_error
      · refine absurd ?_ (hchecked rfl)
        dsimp only at hcancelled
        split at hcancelled
        · exact hcancelled
        · split at hcancelled <;> exact hcancelled
  openRun_sound _ _ _ _ := trivial
  openRun_of_cancelled _ _ _ := .inl fun _ _ h => h
  openRun_interrupted _ _ _ _ _ := fun _ _ h => h

end IndexScanCursor

/-! ## Operators over an input -/

section

variable {σ : Type} {m : Machine σ} {Sound Silent : σ → Prop}

namespace Node

variable {ρ : Type} {run : ρ → ρ} {SilentNode : Node ρ σ → Prop}

/-- An open node over an input in a silent state. -/
def SilentOver (Silent : σ → Prop) (s : Node ρ σ) : Prop :=
  s.base.state = .active ∧ Silent s.input

theorem openRun_sound (hm : m.Heeds ctx Sound Silent) (s : Node ρ σ) {w : World}
    (hknows : w.Knows ctx) (hok : (openRun m run ctx s w).result = .ok ()) :
    Sound (openRun m run ctx s w).state.input := by
  rw [openRun] at hok ⊢
  split
  · rename_i hbase
    rw [hbase] at hok
    cases hok
  · rename_i base hbase
    rw [hbase] at hok
    have hsound := hm.openRun_sound s.input hknows
    dsimp only at hok ⊢
    generalize m.openRun ctx s.input w = o at hok hsound
    obtain ⟨_ | _, input, w'⟩ := o
    · cases hok
    · exact hsound rfl

/-- A node is opened like its input, if it is silent once it is open exactly if its input is. -/
theorem openRun_of_cancelled (hm : m.Heeds ctx Sound Silent)
    (hsilent : ∀ base input r, SilentNode ⟨base, input, run r⟩ ↔
      base.state = .active ∧ Silent input) (s : Node ρ σ) {w : World}
    (hcancelled : w.Cancelled ctx) :
    (openRun m run ctx s w).Spoilt SilentNode ∨
      ∃ t, SilentNode t ∧ ∀ w, openRun m run ctx s w = ⟨.ok (), t, w⟩ := by
  by_cases hidle : s.base.state = .idle
  · simp only [openRun, CursorBase.beginOpen_eq_ok hidle]
    obtain hspoilt | ⟨t, ht, hopened⟩ := hm.openRun_of_cancelled s.input hcancelled
    · left
      generalize m.openRun ctx s.input w = o at hspoilt
      obtain ⟨_ | _, input, w'⟩ := o
      · exact .of_error
      · exact .of_state fun h => hspoilt () rfl ((hsilent _ _ _).mp h).2
    · right
      refine ⟨⟨{ s.base with state := .active }, t, run s.run⟩, (hsilent _ _ _).mpr ⟨rfl, ht⟩,
        fun w => ?_⟩
      rw [hopened w]
  · rw [openRun, CursorBase.beginOpen_eq_error hidle]
    exact .inl .of_error

theorem openRun_interrupted (hm : m.Heeds ctx Sound Silent)
    (hsilent : ∀ base input r, SilentNode ⟨base, input, run r⟩ ↔
      base.state = .active ∧ Silent input) (s : Node ρ σ) {w : World} (hknows : w.Knows ctx)
    (hlive : ¬ w.Cancelled ctx)
    (hcancelled : (openRun m run ctx s w).world.Cancelled ctx) :
    (openRun m run ctx s w).Spoilt SilentNode := by
  rw [openRun] at hcancelled ⊢
  split
  · exact .of_error
  · rename_i base hbase
    rw [hbase] at hcancelled
    have hopened := hm.openRun_interrupted s.input hknows hlive
    dsimp only at hcancelled ⊢
    generalize m.openRun ctx s.input w = o at hcancelled hopened
    obtain ⟨_ | _, input, w'⟩ := o
    · exact .of_error
    · exact .of_state fun h => hopened hcancelled () rfl ((hsilent _ _ _).mp h).2

end Node

namespace SelectCursor

theorem search_sound (hm : m.Heeds ctx Sound Silent) (predicate : Expr) (fuel : Nat)
    {s : State σ} (hs : Sound s.input) (w : World) :
    Sound (search m predicate ctx fuel s w).state.input := by
  induction fuel generalizing s w with
  | zero => exact hs
  | succ fuel ih =>
      have hnext := hm.next_sound hs w
      rw [search]
      dsimp only [Node.onInput]
      generalize m.next ctx s.input w = o at hnext
      obtain ⟨_ | _ | row, input, w'⟩ := o
      · exact hnext
      · exact hnext
      · dsimp only
        split
        · exact hnext
        · exact hnext
        · exact ih hnext w'

theorem search_of_silent (hm : m.Heeds ctx Sound Silent) (predicate : Expr) (fuel : Nat)
    {s : State σ} (hs : Node.SilentOver Silent s) :
    SilentCall (Node.SilentOver Silent) fun w => search m predicate ctx fuel s w := by
  induction fuel generalizing s with
  | zero => exact .error _ _
  | succ fuel ih =>
      obtain ⟨result, input, hinput, hnext⟩ := hm.next_of_silent hs.2
      simp only [search, Node.onInput, hnext]
      obtain e | _ | row := result
      · exact .error _ _
      · exact .done _
      · have hover : Node.SilentOver Silent { s with input } := ⟨hs.1, hinput row rfl⟩
        dsimp only
        cases passes predicate s.base row with
        | error e => exact .error _ _
        | ok passed =>
            cases passed with
            | true => exact .row row hover
            | false => exact ih hover

theorem search_of_cancelled (hm : m.Heeds ctx Sound Silent) (predicate : Expr) (fuel : Nat)
    {s : State σ} (hs : ¬ Silent s.input) {w : World} (hcancelled : w.Cancelled ctx) :
    ∃ e, (search m predicate ctx fuel s w).result = .error e := by
  cases fuel with
  | zero => exact ⟨_, rfl⟩
  | succ fuel =>
      obtain ⟨e, hnext⟩ := hm.next_of_cancelled hs hcancelled
      simp only [search, Node.onInput, hnext]
      exact ⟨e, rfl⟩

theorem search_interrupted (hm : m.Heeds ctx Sound Silent) (predicate : Expr) (fuel : Nat)
    {s : State σ} (hs : Sound s.input) {w : World} (hlive : ¬ w.Cancelled ctx)
    (hcancelled : (search m predicate ctx fuel s w).world.Cancelled ctx) :
    (search m predicate ctx fuel s w).Interrupted (Node.SilentOver Silent) := by
  induction fuel generalizing s w with
  | zero => exact absurd hcancelled hlive
  | succ fuel ih =>
      have hsound := hm.next_sound hs w
      have hnext := hm.next_interrupted hs hlive
      rw [search] at hcancelled ⊢
      dsimp only [Node.onInput] at hcancelled ⊢
      generalize m.next ctx s.input w = o at hcancelled hsound hnext
      obtain ⟨e | _ | row, input, w'⟩ := o
      · exact .of_error
      · obtain ⟨hsome, -⟩ := hnext hcancelled none rfl
        cases hsome
      · dsimp only at hcancelled hsound hnext ⊢
        by_cases hnow : w'.Cancelled ctx
        · obtain ⟨-, hinput⟩ := hnext hnow _ rfl
          split
          · exact .of_error
          · exact .of_row fun h => hinput h.2
          · obtain ⟨e, herror⟩ := search_of_cancelled hm predicate fuel
              (s := { s with input }) hinput hnow
            rintro row hok
            rw [herror] at hok
            cases hok
        · split at hcancelled
          · exact absurd hcancelled hnow
          · exact absurd hcancelled hnow
          · exact ih hsound hnow hcancelled

theorem heeds (hm : m.Heeds ctx Sound Silent) (predicate : Expr) :
    (machine m predicate).Heeds ctx (fun s => Sound s.input) (Node.SilentOver Silent) where
  evolving := evolving hm.evolving predicate
  next_sound {s} hs w := by
    dsimp only [machine]
    rw [next]
    split
    · exact hs
    · exact search_sound hm predicate _ hs w
  next_of_silent {s} hs := by
    let w₀ := World.ofEngine .empty
    obtain ⟨result, t, ht, hsearch⟩ := search_of_silent hm predicate
      (m.pending ctx s.input w₀ + 1) hs
    refine ⟨result, t, ht, fun w => ?_⟩
    dsimp only [machine]
    rw [next, CursorBase.checkNext_eq_ok hs.1, hm.pending_of_silent hs.2 w₀ w]
    exact hsearch w
  pending_of_silent hs w w' := hm.pending_of_silent hs.2 w w'
  next_of_cancelled {s} hs w hcancelled := by
    dsimp only [machine]
    by_cases hactive : s.base.state = .active
    · rw [next, CursorBase.checkNext_eq_ok hactive]
      exact search_of_cancelled hm predicate _ (fun h => hs ⟨hactive, h⟩) hcancelled
    · rw [next, CursorBase.checkNext_eq_error hactive]
      exact ⟨_, rfl⟩
  next_interrupted {s} hs w hlive hcancelled := by
    dsimp only [machine] at hcancelled ⊢
    rw [next] at hcancelled ⊢
    split
    · exact .of_error
    · rename_i hactive
      rw [hactive] at hcancelled
      exact search_interrupted hm predicate _ hs hlive hcancelled
  openRun_sound s _ hknows hok := Node.openRun_sound hm s hknows hok
  openRun_of_cancelled s _ hcancelled :=
    Node.openRun_of_cancelled hm (fun _ _ _ => Iff.rfl) s hcancelled
  openRun_interrupted s _ hknows hlive hcancelled :=
    Node.openRun_interrupted hm (fun _ _ _ => Iff.rfl) s hknows hlive hcancelled

end SelectCursor

namespace ProjectCursor

theorem heeds (hm : m.Heeds ctx Sound Silent) (p : Projection) :
    (machine m p).Heeds ctx (fun s => Sound s.input) (Node.SilentOver Silent) where
  evolving := evolving hm.evolving p
  next_sound {s} hs w := by
    dsimp only [machine]
    rw [next]
    split
    · exact hs
    · have hnext := hm.next_sound hs w
      dsimp only [Node.onInput]
      generalize m.next ctx s.input w = o at hnext
      obtain ⟨_ | _ | row, input, w'⟩ := o
      · exact hnext
      · exact hnext
      · dsimp only
        split <;> exact hnext
  next_of_silent {s} hs := by
    obtain ⟨result, input, hinput, hnext⟩ := hm.next_of_silent hs.2
    dsimp only [machine]
    simp only [next, CursorBase.checkNext_eq_ok hs.1, Node.onInput, hnext]
    obtain e | _ | row := result
    · exact .error _ _
    · exact .done _
    · dsimp only
      cases rowOf p s.base row with
      | error e => exact .error _ _
      | ok out => exact .row out ⟨hs.1, hinput row rfl⟩
  pending_of_silent hs w w' := hm.pending_of_silent hs.2 w w'
  next_of_cancelled {s} hs w hcancelled := by
    dsimp only [machine]
    by_cases hactive : s.base.state = .active
    · obtain ⟨e, hnext⟩ := hm.next_of_cancelled (fun h => hs ⟨hactive, h⟩) hcancelled
      simp only [next, CursorBase.checkNext_eq_ok hactive, Node.onInput, hnext]
      exact ⟨e, rfl⟩
    · rw [next, CursorBase.checkNext_eq_error hactive]
      exact ⟨_, rfl⟩
  next_interrupted {s} hs w hlive hcancelled := by
    dsimp only [machine] at hcancelled ⊢
    rw [next] at hcancelled ⊢
    split
    · exact .of_error
    · rename_i hactive
      rw [hactive] at hcancelled
      have hnext := hm.next_interrupted hs hlive
      dsimp only [Node.onInput] at hcancelled ⊢
      generalize m.next ctx s.input w = o at hcancelled hnext
      obtain ⟨e | _ | row, input, w'⟩ := o
      · exact .of_error
      · obtain ⟨hsome, -⟩ := hnext hcancelled none rfl
        cases hsome
      · dsimp only at hcancelled ⊢
        have hnow : w'.Cancelled ctx := by
          split at hcancelled <;> exact hcancelled
        obtain ⟨-, hinput⟩ := hnext hnow _ rfl
        split
        · exact .of_error
        · exact .of_row fun h => hinput h.2
  openRun_sound s _ hknows hok := Node.openRun_sound hm s hknows hok
  openRun_of_cancelled s _ hcancelled :=
    Node.openRun_of_cancelled hm (fun _ _ _ => Iff.rfl) s hcancelled
  openRun_interrupted s _ hknows hlive hcancelled :=
    Node.openRun_interrupted hm (fun _ _ _ => Iff.rfl) s hknows hlive hcancelled

end ProjectCursor

namespace AggregateCursor

theorem emit_inputDone (g : Grouping) (p : Progress) : (emit g p).2.inputDone = p.inputDone := by
  rw [emit]
  split <;> rfl

/-- Taking a row does not make the input end. -/
theorem take_inputDone (g : Grouping) (row : Row) (p : Progress) :
    (take g row p).2.inputDone = p.inputDone := by
  have hfeed (p' : Progress) : (feed g row p').2.inputDone = p'.inputDone := rfl
  have hemit := emit_inputDone g p
  rw [take]
  split
  · have hfed := hfeed (startGroup g row p)
    generalize feed g row (startGroup g row p) = x at hfed
    obtain ⟨_ | _, p'⟩ := x <;> exact hfed
  · split
    · have hfed := hfeed p
      generalize feed g row p = x at hfed
      obtain ⟨_ | _, p'⟩ := x <;> exact hfed
    · generalize emit g p = x at hemit
      obtain ⟨_ | _, p'⟩ := x
      · exact hemit
      · have hfed := (hfeed (startGroup g row p')).trans hemit
        dsimp only
        generalize feed g row (startGroup g row p') = x at hfed
        obtain ⟨_ | _, p''⟩ := x <;> exact hfed

/-- A group that has ended has a row. -/
theorem isSome_of_finished {g : Grouping} {row : Row} {p p' : Progress} {finished : Option Row}
    (h : take g row p = (.finished finished, p')) : finished.isSome = true := by
  rw [take] at h
  split at h
  · split at h <;> cases h
  · rename_i key hgroup
    split at h
    · split at h <;> cases h
    · rw [emit, hgroup] at h
      dsimp only at h
      cases hrow : g.rowOf key p.slots with
      | error e =>
          rw [hrow] at h
          cases h
      | ok r =>
          rw [hrow] at h
          dsimp only [Except.map] at h
          split at h
          · cases h
          · cases h
            rfl

/-- An open grouping needs its input no more once the input has ended. -/
def SilentOver (Silent : σ → Prop) (s : State σ) : Prop :=
  s.base.state = .active ∧ (s.run.inputDone = true ∨ Silent s.input)

theorem flush_of_done (g : Grouping) {s : State σ} (hactive : s.base.state = .active)
    (hdone : s.run.inputDone = true) :
    SilentCall (SilentOver Silent) fun w => flush g s w := by
  have hemit := emit_inputDone g s.run
  rw [hdone] at hemit
  simp only [flush]
  generalize emit g s.run = x at hemit
  obtain ⟨_ | _ | row, run⟩ := x
  · exact .error _ _
  · exact .done _
  · exact .row row ⟨hactive, .inl hemit⟩

theorem flush_world (g : Grouping) (s : State σ) (w : World) : (flush g s w).world = w := by
  rw [flush]
  split <;> rfl

theorem search_sound (hm : m.Heeds ctx Sound Silent) (g : Grouping) (fuel : Nat)
    {s : State σ} (hs : Sound s.input) (w : World) :
    Sound (search m g ctx fuel s w).state.input := by
  induction fuel generalizing s w with
  | zero => exact hs
  | succ fuel ih =>
      have hnext := hm.next_sound hs w
      rw [search]
      dsimp only [Node.onInput]
      generalize m.next ctx s.input w = o at hnext
      obtain ⟨_ | _ | row, input, w'⟩ := o
      · exact hnext
      · dsimp only
        rw [flush]
        split <;> exact hnext
      · dsimp only
        split
        · exact ih hnext w'
        · exact hnext
        · exact hnext

theorem search_of_silent (hm : m.Heeds ctx Sound Silent) (g : Grouping) (fuel : Nat)
    {s : State σ} (hactive : s.base.state = .active) (hs : Silent s.input) :
    SilentCall (SilentOver Silent) fun w => search m g ctx fuel s w := by
  induction fuel generalizing s with
  | zero => exact .error _ _
  | succ fuel ih =>
      obtain ⟨result, input, hinput, hnext⟩ := hm.next_of_silent hs
      simp only [search, Node.onInput, hnext]
      obtain e | _ | row := result
      · exact .error _ _
      · exact flush_of_done g (s := ⟨s.base, input, { s.run with inputDone := true }⟩) hactive rfl
      · have hover := hinput row rfl
        dsimp only
        obtain ⟨_ | ⟨_ | row'⟩ | e, run⟩ := take g row s.run
        · exact ih hactive hover
        · exact .done _
        · exact .row row' ⟨hactive, .inr hover⟩
        · exact .error _ _

theorem search_of_cancelled (hm : m.Heeds ctx Sound Silent) (g : Grouping) (fuel : Nat)
    {s : State σ} (hs : ¬ Silent s.input) {w : World} (hcancelled : w.Cancelled ctx) :
    ∃ e, (search m g ctx fuel s w).result = .error e := by
  cases fuel with
  | zero => exact ⟨_, rfl⟩
  | succ fuel =>
      obtain ⟨e, hnext⟩ := hm.next_of_cancelled hs hcancelled
      simp only [search, Node.onInput, hnext]
      exact ⟨e, rfl⟩

theorem search_interrupted (hm : m.Heeds ctx Sound Silent) (g : Grouping) (fuel : Nat)
    {s : State σ} (hs : Sound s.input) (hdone : s.run.inputDone = false) {w : World}
    (hlive : ¬ w.Cancelled ctx)
    (hcancelled : (search m g ctx fuel s w).world.Cancelled ctx) :
    (search m g ctx fuel s w).Interrupted (SilentOver Silent) := by
  induction fuel generalizing s w with
  | zero => exact absurd hcancelled hlive
  | succ fuel ih =>
      have hsound := hm.next_sound hs w
      have hnext := hm.next_interrupted hs hlive
      rw [search] at hcancelled ⊢
      dsimp only [Node.onInput] at hcancelled ⊢
      generalize m.next ctx s.input w = o at hcancelled hsound hnext
      obtain ⟨e | _ | row, input, w'⟩ := o
      · exact .of_error
      · -- the end of the input was reported, so nothing has been cancelled
        dsimp only at hcancelled
        rw [flush_world] at hcancelled
        obtain ⟨hsome, -⟩ := hnext hcancelled none rfl
        cases hsome
      · dsimp only at hcancelled hsound hnext ⊢
        have hstill := (take_inputDone g row s.run).trans hdone
        have hfinished {finished : Option Row} {p' : Progress} :
            take g row s.run = (.finished finished, p') → finished.isSome = true :=
          isSome_of_finished
        generalize take g row s.run = x at hcancelled hstill hfinished
        obtain ⟨step, run⟩ := x
        by_cases hnow : w'.Cancelled ctx
        · obtain ⟨-, hinput⟩ := hnext hnow _ rfl
          cases step with
          | more =>
              obtain ⟨e, herror⟩ := search_of_cancelled hm g fuel
                (s := { s with input, run }) hinput hnow
              rintro row hok
              rw [herror] at hok
              cases hok
          | failed e => exact .of_error
          | finished finished =>
              rintro _ ⟨⟩
              refine ⟨hfinished rfl, ?_⟩
              rintro ⟨-, hover | hsilent⟩
              · cases hstill.symm.trans hover
              · exact hinput hsilent
        · cases step with
          | more => exact ih hsound hstill hnow hcancelled
          | failed e => exact absurd hcancelled hnow
          | finished finished => exact absurd hcancelled hnow

theorem heeds (hm : m.Heeds ctx Sound Silent) (g : Grouping) :
    (machine m g).Heeds ctx (fun s => Sound s.input) (SilentOver Silent) where
  evolving := evolving hm.evolving g
  next_sound {s} hs w := by
    dsimp only [machine]
    rw [next]
    split
    · exact hs
    · split
      · rw [flush]
        split <;> exact hs
      · exact search_sound hm g _ hs w
  next_of_silent {s} hs := by
    obtain ⟨hactive, hs⟩ := hs
    dsimp only [machine]
    simp only [next, CursorBase.checkNext_eq_ok hactive]
    cases hdone : s.run.inputDone with
    | true => exact flush_of_done g hactive hdone
    | false =>
        have hinput := hs.resolve_left (Bool.eq_false_iff.mp hdone)
        let w₀ := World.ofEngine .empty
        obtain ⟨result, t, ht, hsearch⟩ := search_of_silent hm g
          (searchLimit m ctx s w₀ + 1) hactive hinput
        refine ⟨result, t, ht, fun w => ?_⟩
        have hlimit : searchLimit m ctx s w = searchLimit m ctx s w₀ := by
          rw [searchLimit, searchLimit, hm.pending_of_silent hinput w₀ w]
        dsimp only
        rw [if_neg Bool.false_ne_true, hlimit]
        exact hsearch w
  pending_of_silent {s} hs w w' := by
    obtain ⟨hactive, hs⟩ := hs
    dsimp only [machine]
    rw [pending, pending, hactive]
    cases hdone : s.run.inputDone with
    | true => rfl
    | false => rw [hm.pending_of_silent (hs.resolve_left (Bool.eq_false_iff.mp hdone)) w w']
  next_of_cancelled {s} hs w hcancelled := by
    dsimp only [machine]
    by_cases hactive : s.base.state = .active
    · rw [next, CursorBase.checkNext_eq_ok hactive]
      dsimp only
      rw [if_neg fun hdone => hs ⟨hactive, .inl hdone⟩]
      exact search_of_cancelled hm g _ (fun h => hs ⟨hactive, .inr h⟩) hcancelled
    · rw [next, CursorBase.checkNext_eq_error hactive]
      exact ⟨_, rfl⟩
  next_interrupted {s} hs w hlive hcancelled := by
    dsimp only [machine] at hcancelled ⊢
    rw [next] at hcancelled ⊢
    split
    · exact .of_error
    · rename_i hactive
      rw [hactive] at hcancelled
      dsimp only at hcancelled
      cases hdone : s.run.inputDone with
      | true =>
          rw [if_pos hdone, flush_world] at hcancelled
          exact absurd hcancelled hlive
      | false =>
          rw [if_neg (Bool.eq_false_iff.mp hdone)] at hcancelled
          rw [if_neg Bool.false_ne_true]
          exact search_interrupted hm g _ hs hdone hlive hcancelled
  openRun_sound s _ hknows hok := Node.openRun_sound hm s hknows hok
  openRun_of_cancelled s _ hcancelled :=
    Node.openRun_of_cancelled hm (fun _ _ _ => by simp [SilentOver, Progress.start]) s hcancelled
  openRun_interrupted s _ hknows hlive hcancelled :=
    Node.openRun_interrupted hm (fun _ _ _ => by simp [SilentOver, Progress.start]) s hknows hlive
      hcancelled

end AggregateCursor

namespace SortCursor

theorem fill_of_cancelled (hm : m.Heeds ctx Sound Silent) (sorting : Sorting) (fuel : Nat)
    (held : List Row) {input : σ} (hs : ¬ Silent input) {w : World}
    (hcancelled : w.Cancelled ctx) :
    ∃ e, (fill m sorting ctx fuel held input w).result = .error e := by
  cases fuel with
  | zero => exact ⟨_, rfl⟩
  | succ fuel =>
      obtain ⟨e, hnext⟩ := hm.next_of_cancelled hs hcancelled
      simp only [fill, hnext]
      exact ⟨e, rfl⟩

/-- After the context has been cancelled, only an input without rows can be taken. -/
theorem fill_of_silent (hm : m.Heeds ctx Sound Silent) (sorting : Sorting) (fuel : Nat)
    (held : List Row) {input : σ} (hs : Silent input) {w : World}
    (hcancelled : w.Cancelled ctx) :
    (∃ e, (fill m sorting ctx fuel held input w).result = .error e) ∨
      ∃ t, ∀ w, fill m sorting ctx fuel held input w = ⟨.ok held, t, w⟩ := by
  cases fuel with
  | zero => exact .inl ⟨_, rfl⟩
  | succ fuel =>
      obtain ⟨result, t, -, hnext⟩ := hm.next_of_silent hs
      simp only [fill, hnext]
      obtain e | _ | row := result
      · exact .inl ⟨e, rfl⟩
      · exact .inr ⟨t, fun w => rfl⟩
      · have hchecked := World.check_eq_error hcancelled
        left
        generalize w.check ctx = x at hchecked
        obtain ⟨result, w'⟩ := x
        obtain rfl : result = .error .cancelled := hchecked
        exact ⟨_, rfl⟩

theorem fill_interrupted (hm : m.Heeds ctx Sound Silent) (sorting : Sorting) (fuel : Nat)
    (held : List Row) {input : σ} (hs : Sound input) {w : World} (hlive : ¬ w.Cancelled ctx)
    (hcancelled : (fill m sorting ctx fuel held input w).world.Cancelled ctx) :
    ∃ e, (fill m sorting ctx fuel held input w).result = .error e := by
  induction fuel generalizing held input w with
  | zero => exact ⟨_, rfl⟩
  | succ fuel ih =>
      have hsound := hm.next_sound hs w
      have hnext := hm.next_interrupted hs hlive
      rw [fill] at hcancelled ⊢
      generalize m.next ctx input w = o at hcancelled hsound hnext
      obtain ⟨e | _ | row, input, w'⟩ := o
      · exact ⟨_, rfl⟩
      · obtain ⟨hsome, -⟩ := hnext hcancelled none rfl
        cases hsome
      · have hchecked {w''} : w'.check ctx = (.ok (), w'') → ¬ w''.Cancelled ctx :=
          World.not_cancelled_of_check
        dsimp only at hcancelled hsound ⊢
        generalize w'.check ctx = x at hchecked hcancelled
        obtain ⟨_ | _, w''⟩ := x
        · exact ⟨_, rfl⟩
        · exact ih _ hsound (hchecked rfl) hcancelled

theorem sorted_interrupted (hm : m.Heeds ctx Sound Silent) (sorting : Sorting) (input : σ)
    {w : World} (hknows : w.Knows ctx) (hlive : ¬ w.Cancelled ctx)
    (hcancelled : (sorted m sorting ctx input w).world.Cancelled ctx) :
    ∃ e, (sorted m sorting ctx input w).result = .error e := by
  rw [sorted] at hcancelled ⊢
  split
  · exact ⟨_, rfl⟩
  · rename_i hlimit
    rw [hlimit] at hcancelled
    have hsound := hm.openRun_sound input hknows
    have hopened := hm.openRun_interrupted input hknows hlive
    dsimp only at hcancelled ⊢
    generalize m.openRun ctx input w = o at hcancelled hsound hopened
    obtain ⟨_ | _, input', w'⟩ := o
    · exact ⟨_, rfl⟩
    · by_cases hnow : w'.Cancelled ctx
      · exact fill_of_cancelled hm sorting _ [] (hopened hnow () rfl) hnow
      · exact fill_interrupted hm sorting _ [] (hsound rfl) hnow hcancelled

theorem sorted_of_cancelled (hm : m.Heeds ctx Sound Silent) (sorting : Sorting) (input : σ)
    {w : World} (hcancelled : w.Cancelled ctx) :
    (∃ e, (sorted m sorting ctx input w).result = .error e) ∨
      ∃ rows t, ∀ w, sorted m sorting ctx input w = ⟨.ok rows, t, w⟩ := by
  have hstill : (m.openRun ctx input w).world.Cancelled ctx :=
    (hm.evolving.openRun ctx input w).isCancelled hcancelled
  simp only [sorted]
  cases sorting.checkLimit ctx.config.maxRowsInMemory with
  | error e => exact .inl ⟨e, rfl⟩
  | ok _ =>
      dsimp only
      obtain hspoilt | ⟨t, ht, hopened⟩ := hm.openRun_of_cancelled input hcancelled
      · left
        generalize m.openRun ctx input w = o at hspoilt hstill
        obtain ⟨e | _, input', w'⟩ := o
        · exact ⟨e, rfl⟩
        · exact fill_of_cancelled hm sorting _ [] (hspoilt () rfl) hstill
      · have hfuel (w' : World) : m.pending ctx t w' = m.pending ctx t w :=
          hm.pending_of_silent ht w w'
        simp only [hopened, hfuel]
        obtain herror | ⟨t', hfilled⟩ := fill_of_silent hm sorting
          (m.pending ctx t w + 1) [] ht hcancelled
        · exact .inl herror
        · exact .inr ⟨[], t', hfilled⟩

/-- Sorted rows are handed out whatever happens. -/
theorem heeds (hm : m.Heeds ctx Sound Silent) (sorting : Sorting) :
    (machine m sorting).Heeds ctx (fun _ => True) fun s => s.base.state = .active where
  evolving := evolving hm.evolving sorting
  next_sound _ _ := trivial
  next_of_silent {s} hactive := by
    dsimp only [machine]
    simp only [next, CursorBase.checkNext_eq_ok hactive]
    cases s.run.head? with
    | none => exact .done _
    | some row => exact .row row hactive
  pending_of_silent {s} hactive w w' := by
    dsimp only [machine]
    rw [pending, pending, hactive]
  next_of_cancelled {s} hactive w _ := by
    dsimp only [machine]
    rw [next, CursorBase.checkNext_eq_error hactive]
    exact ⟨_, rfl⟩
  next_interrupted {s} _ w hlive hcancelled := by
    dsimp only [machine, next] at hcancelled
    split at hcancelled <;> exact absurd hcancelled hlive
  openRun_sound _ _ _ _ := trivial
  openRun_of_cancelled s w hcancelled := by
    dsimp only [machine]
    by_cases hidle : s.base.state = .idle
    · simp only [openRun, CursorBase.beginOpen_eq_ok hidle]
      obtain ⟨e, herror⟩ | ⟨rows, t, hsorted⟩ :=
        sorted_of_cancelled hm sorting s.input hcancelled
      · simp only [herror]
        exact .inl .of_error
      · simp only [hsorted]
        exact .inr ⟨_, rfl, fun w => rfl⟩
    · rw [openRun, CursorBase.beginOpen_eq_error hidle]
      exact .inl .of_error
  openRun_interrupted s w hknows hlive hcancelled := by
    dsimp only [machine] at hcancelled ⊢
    rw [openRun] at hcancelled ⊢
    split
    · exact .of_error
    · rename_i base hbase
      rw [hbase] at hcancelled
      have hsorted := sorted_interrupted hm sorting s.input hknows hlive
      dsimp only at hcancelled ⊢
      generalize sorted m sorting ctx s.input w = o at hcancelled hsorted
      obtain ⟨_ | _, input, w'⟩ := o
      · exact .of_error
      · obtain ⟨e, he⟩ := hsorted hcancelled
        cases he

end SortCursor
end
end OrderedQuery
