import OrderedQuery.Proofs.Cursor.Common
import OrderedQuery.Proofs.Query.Locality

/-!
# Cursors keep to themselves

A cursor of a party does what it would do if the party were alone, and the others do not
notice it.  `Machine.Local` says so of every operation.  What a cursor holds outside of its
state, such as the sessions of workers, is described by a condition `Owns`; an operation
that starts from something owned ends with something owned.
-/

namespace OrderedQuery

instance {σ α : Type} : Carries (Outcome σ α) :=
  ⟨Outcome.world, fun o h => { o with world := o.world.only h }⟩

/-- All that a cursor in a state holds is among the holdings. -/
abbrev Ownership (σ : Type) := Holdings → σ → Prop

/-- The operation concerns nobody but the party that carries it out. -/
def Acts {σ α : Type} (Owns : Ownership σ) (op : Action σ α) : Prop :=
  ∀ ⦃h ctx w⦄, h.Hosts ctx w → ∀ ⦃s⦄, Owns (h.upto w) s →
    Within h w (fun o => Owns (h.upto o.world) o.state) (op ctx s w) (op ctx s (w.only h))

/-- The operations of a cursor concern nobody but its party. -/
structure Machine.Local {σ : Type} (m : Machine σ) (Owns : Ownership σ) : Prop where
  mono : ∀ ⦃h h' s⦄, Owns h s → h ≤ h' → Owns h' s
  fresh : ∀ h source, Owns h (m.fresh source)
  pending : ∀ ⦃h ctx w s⦄, h.Fits w → h.Covers ctx → Owns h s →
    m.pending ctx s (w.only h) = m.pending ctx s w
  openRun : Acts Owns m.openRun
  next : Acts Owns m.next
  closeRun : Acts Owns m.closeRun
  destroy : Acts Owns m.destroy
  openBindings : Acts Owns m.openBindings
  nextBindings : Acts Owns m.nextBindings
  closeBindings : Acts Owns m.closeBindings
  letGo : ∀ ⦃h w s⦄, h.Fits w → Owns (h.upto w) s →
    Within h w (fun _ => True) (m.letGo s w) (m.letGo s (w.only h))

variable {σ ρ : Type} {m : Machine σ} {Owns : Ownership σ} {h : Holdings} {ctx : Context}
  {w : World}

theorem Machine.Local.pending_upto (hm : m.Local Owns) (hh : h.Hosts ctx w) {s : σ}
    (hs : Owns (h.upto w) s) : m.pending ctx s (w.only h) = m.pending ctx s w :=
  hm.pending hh.fits (hh.covers.mono (h.upto_le w)) (hm.mono hs (h.upto_le w))

/-! ## Leaves -/

namespace Leaf

/-- A leaf holds what it keeps during a run. -/
def OwnsRun (Holds : Ownership ρ) : Ownership (Leaf ρ) := fun h s => Holds h s.run

variable {Holds : Ownership ρ}

theorem openBindings_acts : Acts (OwnsRun Holds) openBindings := by
  intro h ctx w hh s hs
  unfold openBindings
  cases s.base.ensureLive "open bindings" with
  | error e => exact ⟨rfl, hh.fits.keeps_refl, hs⟩
  | ok u => exact ⟨rfl, hh.fits.keeps_refl, hs⟩

theorem nextBindings_acts : Acts (OwnsRun Holds) nextBindings := by
  intro h ctx w hh s hs
  unfold nextBindings
  cases s.base.ensureLive "next bindings" with
  | error e => exact ⟨rfl, hh.fits.keeps_refl, hs⟩
  | ok u =>
      rcases s.source.take with ⟨e | env, source⟩
      · exact ⟨rfl, hh.fits.keeps_refl, hs⟩
      · exact ⟨rfl, hh.fits.keeps_refl, hs⟩

theorem closeBindings_acts : Acts (OwnsRun Holds) closeBindings := by
  intro h ctx w hh s hs
  unfold closeBindings
  cases s.base.ensureLive "close bindings" with
  | error e => exact ⟨rfl, hh.fits.keeps_refl, hs⟩
  | ok u => exact ⟨rfl, hh.fits.keeps_refl, hs⟩

theorem destroy_acts {close : Action (Leaf ρ) Unit} (hclose : Acts (OwnsRun Holds) close) :
    Acts (OwnsRun Holds) (destroy close) := by
  intro h ctx w hh s hs
  unfold destroy
  cases s.base.ensureLive "destroy" with
  | error e => exact ⟨rfl, hh.fits.keeps_refl, hs⟩
  | ok u =>
      obtain ⟨honly, hkeeps, howns⟩ := hclose hh hs
      simp only [honly]
      exact ⟨rfl, hkeeps, howns⟩

/-- A leaf that only reads the world is local if its run is. -/
theorem machine_local {m : Machine (Leaf ρ)} {name : String} {start : ρ}
    (hm : Common m name start)
    (hmono : ∀ ⦃h h' run⦄, Holds h run → h ≤ h' → Holds h' run)
    (hstart : ∀ h, Holds h start)
    (hpending : ∀ ⦃h ctx w s⦄, h.Fits w → h.Covers ctx → OwnsRun Holds h s →
      m.pending ctx s (w.only h) = m.pending ctx s w)
    (hopenRun : Acts (OwnsRun Holds) m.openRun) (hnext : Acts (OwnsRun Holds) m.next)
    (hcloseRun : Acts (OwnsRun Holds) m.closeRun)
    (hletGo : ∀ ⦃h w s⦄, h.Fits w → OwnsRun Holds (h.upto w) s →
      Within h w (fun _ => True) (m.letGo s w) (m.letGo s (w.only h))) :
    m.Local (OwnsRun Holds) where
  mono _ _ _ hs hle := hmono hs hle
  fresh h source := by
    rw [hm.fresh]
    exact hstart h
  pending := hpending
  openRun := hopenRun
  next := hnext
  closeRun := hcloseRun
  destroy := hm.destroy ▸ destroy_acts hcloseRun
  openBindings := hm.openBindings ▸ openBindings_acts
  nextBindings := hm.nextBindings ▸ nextBindings_acts
  closeBindings := hm.closeBindings ▸ closeBindings_acts
  letGo := hletGo

/-- Nothing is held outside of the state. -/
def HoldsNothing : Ownership ρ := fun _ _ => True

end Leaf

namespace ValuesCursor

theorem machine_local (rows : List Row) :
    (machine rows).Local (Leaf.OwnsRun Leaf.HoldsNothing) := by
  refine Leaf.machine_local (common rows) (fun _ _ _ _ _ => trivial) (fun _ => trivial)
    (fun _ _ _ _ _ _ _ => rfl) ?_ ?_ ?_ (fun _ _ _ hf _ => ⟨rfl, hf.keeps_refl, trivial⟩)
  · intro h ctx w hh s hs
    dsimp only [machine, openRun]
    cases s.base.beginOpen with
    | error e => exact ⟨rfl, hh.fits.keeps_refl, trivial⟩
    | ok base => exact ⟨rfl, hh.fits.keeps_refl, trivial⟩
  · intro h ctx w hh s hs
    dsimp only [machine, next]
    cases s.base.checkNext with
    | error e => exact ⟨rfl, hh.fits.keeps_refl, trivial⟩
    | ok u => exact ⟨rfl, hh.fits.keeps_refl, trivial⟩
  · intro h ctx w hh s hs
    dsimp only [machine, closeRun]
    cases s.base.beginClose with
    | error e => exact ⟨rfl, hh.fits.keeps_refl, trivial⟩
    | ok base => exact ⟨rfl, hh.fits.keeps_refl, trivial⟩

end ValuesCursor

namespace IndexScanCursor

/-- Whether or not the others are there, a session reads the same store. -/
theorem pending_only {s : State} (hc : h.Covers ctx) (w : World) :
    pending ctx s (w.only h) = pending ctx s w := by
  rw [pending, pending, Holdings.view_only hc.session]

theorem next_acts (scan : IndexScan) : Acts (Leaf.OwnsRun Leaf.HoldsNothing) (next scan) := by
  intro h ctx w hh s _
  unfold next
  cases s.base.checkNext with
  | error e => exact ⟨rfl, hh.fits.keeps_refl, trivial⟩
  | ok u =>
      obtain ⟨honly, hkeeps, -⟩ := hh.check
      simp only [honly]
      generalize w.check ctx = x at hkeeps
      obtain ⟨result, w₁⟩ := x
      have hkeeps₁ : h.Keeps w w₁ := hkeeps
      have hh₁ := hh.keeps hkeeps₁
      cases result with
      | error e => exact ⟨rfl, hkeeps₁, trivial⟩
      | ok u =>
          have hadvance : advance ctx (w₁.only h) s.run = advance ctx w₁ s.run := by
            cases s.run with
            | none => rfl
            | some t => rw [advance, advance, Holdings.view_only hh₁.session]
          simp only [Carries.only, hadvance]
          rcases advance ctx w₁ s.run with ⟨_ | ⟨key, value⟩, run⟩
          · exact ⟨rfl, hkeeps₁, trivial⟩
          · have hread : h.Keeps w₁ (w₁.recordRead 1) :=
              hkeeps₁.fits.keeps_of_eq rfl rfl (Nat.le_refl _)
            dsimp only
            cases rowOf scan key with
            | error e => exact ⟨rfl, hkeeps₁.trans hread, trivial⟩
            | ok row => exact ⟨rfl, hkeeps₁.trans hread, trivial⟩

theorem machine_local (scan : IndexScan) :
    (machine scan).Local (Leaf.OwnsRun Leaf.HoldsNothing) := by
  refine Leaf.machine_local (common scan) (fun _ _ _ _ _ => trivial) (fun _ => trivial)
    (fun _ _ _ _ _ hc _ => pending_only hc _) ?_ (next_acts scan) ?_
    (fun _ _ _ hf _ => ⟨rfl, hf.keeps_refl, trivial⟩)
  · intro h ctx w hh s hs
    dsimp only [machine, openRun]
    cases s.base.beginOpen with
    | error e => exact ⟨rfl, hh.fits.keeps_refl, trivial⟩
    | ok base =>
        dsimp only
        cases traversal? scan ctx base with
        | error e => exact ⟨rfl, hh.fits.keeps_refl, trivial⟩
        | ok run => exact ⟨rfl, hh.fits.keeps_refl, trivial⟩
  · intro h ctx w hh s hs
    dsimp only [machine, closeRun]
    cases s.base.beginClose with
    | error e => exact ⟨rfl, hh.fits.keeps_refl, trivial⟩
    | ok base => exact ⟨rfl, hh.fits.keeps_refl, trivial⟩

end IndexScanCursor

/-! ## Nodes -/

namespace Node

/-- A node holds what its input holds. -/
def OwnsInput (Owns : Ownership σ) : Ownership (Node ρ σ) := fun h s => Owns h s.input

theorem onInput_acts {α : Type} {op : Action σ α} (hop : Acts Owns op) :
    Acts (OwnsInput Owns) (onInput (ρ := ρ) op) := by
  intro h ctx w hh s hs
  obtain ⟨honly, hkeeps, howns⟩ := hop hh hs
  simp only [onInput, honly]
  exact ⟨rfl, hkeeps, howns⟩

theorem openBindings_acts (hm : m.Local Owns) :
    Acts (OwnsInput Owns) (openBindings (ρ := ρ) m) := by
  intro h ctx w hh s hs
  unfold openBindings
  cases s.base.ensureLive "open bindings" with
  | error e => exact ⟨rfl, hh.fits.keeps_refl, hs⟩
  | ok u => exact onInput_acts hm.openBindings hh hs

theorem nextBindings_acts (hm : m.Local Owns) :
    Acts (OwnsInput Owns) (nextBindings (ρ := ρ) m) := by
  intro h ctx w hh s hs
  unfold nextBindings
  cases s.base.ensureLive "next bindings" with
  | error e => exact ⟨rfl, hh.fits.keeps_refl, hs⟩
  | ok u =>
      obtain ⟨honly, hkeeps, howns⟩ := onInput_acts (ρ := ρ) hm.nextBindings hh hs
      simp only [honly]
      generalize onInput m.nextBindings ctx s w = o at hkeeps howns
      obtain ⟨result, s', w'⟩ := o
      cases result with
      | error e => exact ⟨rfl, hkeeps, howns⟩
      | ok env => exact ⟨rfl, hkeeps, howns⟩

theorem closeBindings_acts (hm : m.Local Owns) :
    Acts (OwnsInput Owns) (closeBindings (ρ := ρ) m) := by
  intro h ctx w hh s hs
  unfold closeBindings
  cases s.base.ensureLive "close bindings" with
  | error e => exact ⟨rfl, hh.fits.keeps_refl, hs⟩
  | ok u => exact onInput_acts hm.closeBindings hh hs

theorem openRun_acts (hm : m.Local Owns) (run : ρ → ρ) :
    Acts (OwnsInput Owns) (openRun m run) := by
  intro h ctx w hh s hs
  unfold openRun
  cases s.base.beginOpen with
  | error e => exact ⟨rfl, hh.fits.keeps_refl, hs⟩
  | ok base =>
      obtain ⟨honly, hkeeps, howns⟩ := hm.openRun hh hs
      simp only [honly]
      generalize m.openRun ctx s.input w = o at hkeeps howns
      obtain ⟨result, input, w'⟩ := o
      cases result with
      | error e => exact ⟨rfl, hkeeps, howns⟩
      | ok u => exact ⟨rfl, hkeeps, howns⟩

theorem closeRun_acts (hm : m.Local Owns) (run : ρ → ρ) :
    Acts (OwnsInput Owns) (closeRun m run) := by
  intro h ctx w hh s hs
  unfold closeRun
  cases s.base.beginClose with
  | error e => exact ⟨rfl, hh.fits.keeps_refl, hs⟩
  | ok base =>
      obtain ⟨honly, hkeeps, howns⟩ := hm.closeRun hh hs
      simp only [honly]
      exact ⟨rfl, hkeeps, howns⟩

theorem destroy_acts (hm : m.Local Owns) {close : Action (Node ρ σ) Unit}
    (hclose : Acts (OwnsInput Owns) close) : Acts (OwnsInput Owns) (destroy m close) := by
  intro h ctx w hh s hs
  unfold destroy
  cases s.base.ensureLive "destroy" with
  | error e => exact ⟨rfl, hh.fits.keeps_refl, hs⟩
  | ok u =>
      obtain ⟨honly, hkeeps, howns⟩ := hclose hh hs
      simp only [honly]
      generalize close ctx s w = closed at hkeeps howns
      obtain ⟨result, s₁, w₁⟩ := closed
      have hkeeps₁ : h.Keeps w w₁ := hkeeps
      obtain ⟨honly₂, hkeeps₂, howns₂⟩ := hm.destroy (hh.keeps hkeeps₁) howns
      simp only [Carries.only] at honly₂ ⊢
      simp only [honly₂]
      exact ⟨rfl, hkeeps₁.trans hkeeps₂, howns₂⟩

/-- A node whose run concerns nobody else is local if its input is. -/
theorem machine_local {M : Machine (Node ρ σ)} {name : String} {start : ρ} {clear : ρ → ρ}
    (hM : Common M m name start clear) (hm : m.Local Owns)
    (hpending : ∀ ⦃h ctx w s⦄, h.Fits w → h.Covers ctx → OwnsInput Owns h s →
      M.pending ctx s (w.only h) = M.pending ctx s w)
    (hopenRun : Acts (OwnsInput Owns) M.openRun) (hnext : Acts (OwnsInput Owns) M.next)
    (hletGo : ∀ s w, M.letGo s w = m.letGo s.input w) : M.Local (OwnsInput Owns) where
  mono _ _ _ hs hle := hm.mono hs hle
  fresh h source := by
    rw [OwnsInput, hM.fresh]
    exact hm.fresh h source
  pending := hpending
  openRun := hopenRun
  next := hnext
  closeRun := hM.closeRun ▸ closeRun_acts hm clear
  destroy := hM.destroy ▸ destroy_acts hm (closeRun_acts hm clear)
  openBindings := hM.openBindings ▸ openBindings_acts hm
  nextBindings := hM.nextBindings ▸ nextBindings_acts hm
  closeBindings := hM.closeBindings ▸ closeBindings_acts hm
  letGo _ _ s hf hs := by
    rw [hletGo, hletGo]
    exact hm.letGo hf hs

end Node

namespace SelectCursor

theorem search_acts (hm : m.Local Owns) (predicate : Expr) (fuel : Nat) :
    Acts (Node.OwnsInput Owns) fun ctx s w => search m predicate ctx fuel s w := by
  intro h ctx w hh s hs
  induction fuel generalizing s w with
  | zero => exact ⟨rfl, hh.fits.keeps_refl, hs⟩
  | succ fuel ih =>
      obtain ⟨honly, hkeeps, howns⟩ := Node.onInput_acts (ρ := Unit) hm.next hh hs
      simp only [search, honly]
      generalize Node.onInput m.next ctx s w = o at hkeeps howns
      obtain ⟨result, s', w'⟩ := o
      rcases result with e | _ | row
      · exact ⟨rfl, hkeeps, howns⟩
      · exact ⟨rfl, hkeeps, howns⟩
      · dsimp only [Carries.only]
        rcases passes predicate s'.base row with e | _ | _
        · exact ⟨rfl, hkeeps, howns⟩
        · exact (ih (hh.keeps hkeeps) howns).after hkeeps
        · exact ⟨rfl, hkeeps, howns⟩

theorem machine_local (hm : m.Local Owns) (predicate : Expr) :
    (machine m predicate).Local (Node.OwnsInput Owns) := by
  refine Node.machine_local (common m predicate) hm
    (fun _ _ _ _ hf hc hs => hm.pending hf hc hs) (Node.openRun_acts hm id) ?_ fun _ _ => rfl
  intro h ctx w hh s hs
  dsimp only [machine, next]
  cases s.base.checkNext with
  | error e => exact ⟨rfl, hh.fits.keeps_refl, hs⟩
  | ok u =>
      dsimp only
      rw [hm.pending_upto hh hs]
      exact search_acts hm predicate _ hh hs

end SelectCursor

namespace ProjectCursor

theorem machine_local (hm : m.Local Owns) (p : Projection) :
    (machine m p).Local (Node.OwnsInput Owns) := by
  refine Node.machine_local (common m p) hm
    (fun _ _ _ _ hf hc hs => hm.pending hf hc hs) (Node.openRun_acts hm id) ?_ fun _ _ => rfl
  intro h ctx w hh s hs
  dsimp only [machine, next]
  cases s.base.checkNext with
  | error e => exact ⟨rfl, hh.fits.keeps_refl, hs⟩
  | ok u =>
      obtain ⟨honly, hkeeps, howns⟩ := Node.onInput_acts (ρ := Unit) hm.next hh hs
      simp only [honly]
      generalize Node.onInput m.next ctx s w = o at hkeeps howns
      obtain ⟨result, s', w'⟩ := o
      rcases result with e | _ | row
      · exact ⟨rfl, hkeeps, howns⟩
      · exact ⟨rfl, hkeeps, howns⟩
      · dsimp only [Carries.only]
        cases rowOf p s'.base row with
        | error e => exact ⟨rfl, hkeeps, howns⟩
        | ok out => exact ⟨rfl, hkeeps, howns⟩

end ProjectCursor

namespace AggregateCursor

theorem flush_acts (g : Grouping) :
    Acts (Node.OwnsInput Owns) fun _ s w => flush g s w := by
  intro h ctx w hh s hs
  dsimp only [flush]
  rcases emit g s.run with ⟨e | row, run⟩
  · exact ⟨rfl, hh.fits.keeps_refl, hs⟩
  · exact ⟨rfl, hh.fits.keeps_refl, hs⟩

theorem search_acts (hm : m.Local Owns) (g : Grouping) (fuel : Nat) :
    Acts (Node.OwnsInput Owns) fun ctx s w => search m g ctx fuel s w := by
  intro h ctx w hh s hs
  induction fuel generalizing s w with
  | zero => exact ⟨rfl, hh.fits.keeps_refl, hs⟩
  | succ fuel ih =>
      obtain ⟨honly, hkeeps, howns⟩ := Node.onInput_acts (ρ := Progress) hm.next hh hs
      simp only [search, honly]
      generalize Node.onInput m.next ctx s w = o at hkeeps howns
      obtain ⟨result, s', w'⟩ := o
      have hh' := hh.keeps hkeeps
      rcases result with e | _ | row
      · exact ⟨rfl, hkeeps, howns⟩
      · exact (flush_acts g hh' (s := { s' with run := { s'.run with inputDone := true } })
          howns).after hkeeps
      · dsimp only [Carries.only]
        rcases take g row s'.run with ⟨_ | row' | e, run⟩
        · exact (ih hh' (s := { s' with run }) howns).after hkeeps
        · exact ⟨rfl, hkeeps, howns⟩
        · exact ⟨rfl, hkeeps, howns⟩

theorem machine_local (hm : m.Local Owns) (g : Grouping) :
    (machine m g).Local (Node.OwnsInput Owns) := by
  refine Node.machine_local (common m g) hm ?_ (Node.openRun_acts hm fun _ => Progress.start) ?_
    fun _ _ => rfl
  · intro h ctx w s hf hc hs
    dsimp only [machine, pending]
    rw [hm.pending hf hc hs]
  · intro h ctx w hh s hs
    dsimp only [machine, next]
    cases s.base.checkNext with
    | error e => exact ⟨rfl, hh.fits.keeps_refl, hs⟩
    | ok u =>
        dsimp only [searchLimit]
        rw [hm.pending_upto hh hs]
        cases s.run.inputDone with
        | true => exact flush_acts g hh hs
        | false => exact search_acts hm g _ hh hs

end AggregateCursor

namespace SortCursor

theorem fill_acts (hm : m.Local Owns) (sorting : Sorting) (fuel : Nat) (held : List Row) :
    Acts Owns fun ctx s w => fill m sorting ctx fuel held s w := by
  intro h ctx w hh s hs
  induction fuel generalizing s w held with
  | zero => exact ⟨rfl, hh.fits.keeps_refl, hs⟩
  | succ fuel ih =>
      obtain ⟨honly, hkeeps, howns⟩ := hm.next hh hs
      simp only [fill, honly]
      generalize m.next ctx s w = o at hkeeps howns
      obtain ⟨result, s', w'⟩ := o
      have hkeeps' : h.Keeps w w' := hkeeps
      have hh' := hh.keeps hkeeps'
      rcases result with e | _ | row
      · exact ⟨rfl, hkeeps', howns⟩
      · exact ⟨rfl, hkeeps', howns⟩
      · obtain ⟨honly₂, hkeeps₂, -⟩ := hh'.check
        simp only [Carries.only] at honly₂ ⊢
        simp only [honly₂]
        generalize w'.check ctx = x at hkeeps₂
        obtain ⟨result, w₂⟩ := x
        have howns₂ : Owns (h.upto w₂) s' := hm.mono howns hkeeps₂.upto_le
        cases result with
        | error e => exact ⟨rfl, hkeeps'.trans hkeeps₂, howns₂⟩
        | ok u => exact (ih _ (hh'.keeps hkeeps₂) howns₂).after (hkeeps'.trans hkeeps₂)

theorem sorted_acts (hm : m.Local Owns) (sorting : Sorting) : Acts Owns (sorted m sorting) := by
  intro h ctx w hh s hs
  unfold sorted
  cases sorting.checkLimit ctx.config.maxRowsInMemory with
  | error e => exact ⟨rfl, hh.fits.keeps_refl, hs⟩
  | ok u =>
      obtain ⟨honly, hkeeps, howns⟩ := hm.openRun hh hs
      simp only [honly]
      generalize m.openRun ctx s w = o at hkeeps howns
      obtain ⟨result, s', w'⟩ := o
      cases result with
      | error e => exact ⟨rfl, hkeeps, howns⟩
      | ok u =>
          have hh' : h.Hosts ctx w' := hh.keeps hkeeps
          have howns' : Owns (h.upto w') s' := howns
          dsimp only [Carries.only]
          rw [hm.pending_upto hh' howns']
          exact (fill_acts hm sorting _ [] hh' howns').after hkeeps

theorem machine_local (hm : m.Local Owns) (sorting : Sorting) :
    (machine m sorting).Local (Node.OwnsInput Owns) := by
  refine Node.machine_local (common m sorting) hm ?_ ?_ ?_ fun _ _ => rfl
  · intro h ctx w s hf hc hs
    dsimp only [machine, pending]
    rw [hm.pending hf hc hs]
  · intro h ctx w hh s hs
    dsimp only [machine, openRun]
    cases s.base.beginOpen with
    | error e => exact ⟨rfl, hh.fits.keeps_refl, hs⟩
    | ok base =>
        obtain ⟨honly, hkeeps, howns⟩ := sorted_acts hm sorting hh hs
        simp only [honly]
        generalize sorted m sorting ctx s.input w = o at hkeeps howns
        obtain ⟨result, input, w'⟩ := o
        cases result with
        | error e => exact ⟨rfl, hkeeps, howns⟩
        | ok rows => exact ⟨rfl, hkeeps, howns⟩
  · intro h ctx w hh s hs
    dsimp only [machine, next]
    cases s.base.checkNext with
    | error e => exact ⟨rfl, hh.fits.keeps_refl, hs⟩
    | ok u => exact ⟨rfl, hh.fits.keeps_refl, hs⟩

end SortCursor
end OrderedQuery
