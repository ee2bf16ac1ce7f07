import OrderedQuery.Cursor.Aggregate
import OrderedQuery.Proofs.Cursor.Pipes

/-!
# The listing of a grouping

A cursor that folds groups notices the end of a group only when a row of the next one
arrives.  `AggregateCursor.ahead` tells what is still to come when a group is open, and is
shown to be the listing of the groups that the rows fall into.
-/

namespace OrderedQuery

namespace Grouping

/-- Keys are the same if all of their values are encoded alike. -/
theorem sameKey_iff {a b : List Value} :
    sameKey a b ↔ a.map Key.ascending = b.map Key.ascending := by
  have hvalue (v w : Value) :
      (v.totalCompare w).isEq ↔ Key.ascending v = Key.ascending w := by
    rw [Value.totalCompare_eq_compare_ascending, Ordering.isEq_iff_eq_eq]
    exact Std.LawfulEqOrd.compare_eq_iff_eq
  induction a generalizing b with
  | nil => cases b <;> simp [sameKey]
  | cons v a ih =>
      cases b with
      | nil => simp [sameKey]
      | cons w b =>
          have hrest : sameKey a b ↔ a.map Key.ascending = b.map Key.ascending := ih
          rw [List.map_cons, List.map_cons, List.cons_eq_cons, ← hrest, ← hvalue]
          simp only [sameKey, List.length_cons, Nat.add_right_cancel_iff, List.zip_cons_cons,
            List.all_cons, Bool.and_eq_true, decide_eq_true_eq]
          exact and_left_comm

/-- The rows of a run have the key of the run. -/
structure IsRun (g : Grouping) (run : List Row) : Prop where
  ne_nil : run ≠ []
  same : ∀ row ∈ run, sameKey (g.keyOf run) (g.key row)

variable {g : Grouping}

theorem isRun_singleton (g : Grouping) (row : Row) : g.IsRun [row] where
  ne_nil := List.cons_ne_nil row []
  same := by
    intro row' hrow'
    rw [List.mem_singleton.mp hrow']
    exact sameKey_iff.mpr rfl

theorem keyOf_append {run : List Row} (h : run ≠ []) (rows : List Row) :
    g.keyOf (run ++ rows) = g.keyOf run := by
  cases run with
  | nil => exact absurd rfl h
  | cons row run => rfl

theorem IsRun.concat {run : List Row} (h : g.IsRun run) {row : Row}
    (hrow : sameKey (g.keyOf run) (g.key row)) : g.IsRun (run ++ [row]) where
  ne_nil := by simp
  same := by
    intro row' hrow'
    rw [keyOf_append h.ne_nil]
    rcases List.mem_append.mp hrow' with hmem | hmem
    · exact h.same row' hmem
    · rw [List.mem_singleton.mp hmem]
      exact hrow

theorem IsRun.sameKey_of_mem {run : List Row} (h : g.IsRun run) {a b : Row} (ha : a ∈ run)
    (hb : b ∈ run) : sameKey (g.key a) (g.key b) := by
  have hkey := sameKey_iff.mp (h.same a ha)
  rw [sameKey_iff, ← hkey]
  exact sameKey_iff.mp (h.same b hb)

/-- A run is one group. -/
theorem IsRun.groups_eq {run : List Row} (h : g.IsRun run) : g.groups run = [run] := by
  refine List.splitBy_of_isChain h.ne_nil (List.Pairwise.isChain ?_)
  exact List.pairwise_of_forall_mem_list fun a ha b hb => h.sameKey_of_mem ha hb

/-- A row with another key begins a new group. -/
theorem IsRun.groups_append_cons {run : List Row} (h : g.IsRun run) {row : Row}
    (hrow : ¬sameKey (g.keyOf run) (g.key row)) (rows : List Row) :
    g.groups (run ++ row :: rows) = run :: g.groups (row :: rows) := by
  have hlast : ∀ x ∈ run.getLast?, sameKey (g.key x) (g.key row) = false := by
    intro x hx
    rw [Bool.eq_false_iff]
    intro hsame
    have hkey := sameKey_iff.mp (h.same x (List.mem_of_getLast? hx))
    exact hrow (sameKey_iff.mpr (hkey.trans (sameKey_iff.mp hsame)))
  have hsplit : g.groups (run ++ row :: rows) = g.groups run ++ g.groups (row :: rows) :=
    List.splitBy_append_cons rows hlast
  rw [hsplit, h.groups_eq, List.singleton_append]

/-- The first group begins with any run at the beginning. -/
theorem IsRun.exists_groups_append {run : List Row} (h : g.IsRun run) (rows : List Row) :
    ∃ more rest, g.groups (run ++ rows) = (run ++ more) :: rest ∧ more <+: rows := by
  induction rows generalizing run with
  | nil => exact ⟨[], [], by rw [List.append_nil, h.groups_eq], List.prefix_refl []⟩
  | cons row rows ih =>
      by_cases hrow : sameKey (g.keyOf run) (g.key row)
      · obtain ⟨more, rest, hgroups, hmore⟩ := ih (h.concat hrow)
        rw [List.append_assoc, List.singleton_append] at hgroups
        refine ⟨row :: more, rest, ?_, List.cons_prefix_cons.mpr ⟨rfl, hmore⟩⟩
        rw [hgroups, List.append_assoc, List.singleton_append]
      · exact ⟨[], _, by rw [h.groups_append_cons hrow, List.append_nil], List.nil_prefix⟩

theorem fold_append (slots : List Slot) (group rows : List Row) :
    g.fold slots (group ++ rows) = g.fold slots group >>= fun taken => g.fold taken rows := by
  induction group generalizing slots with
  | nil => rfl
  | cons row group ih =>
      rw [List.cons_append, fold, fold]
      split
      · rfl
      · exact ih _

/-- A refused row ends the listing before the row of its group. -/
theorem listing_cons_of_fold_eq_error {fate : Except QueryError Unit} {group : List Row}
    {e : QueryError} (h : g.fold g.freshSlots group = .error e) (rest : List (List Row)) :
    g.listing fate (group :: rest) = ⟨[], .error e⟩ := by
  cases rest with
  | nil =>
      rw [listing, h]
      rfl
  | cons following rest =>
      rw [listing, summary, h]
      rfl

end Grouping

namespace AggregateCursor

/-- The rows that are still to come from a cursor with a given progress. -/
def ahead (g : Grouping) (fate : Except QueryError Unit) : Progress → List Row → Listing
  | p, [] =>
      match fate, (emit g p).1 with
      | .error e, _ => ⟨[], .error e⟩
      | .ok (), .error e => ⟨[], .error e⟩
      | .ok (), .ok row => ⟨row.toList, .ok ()⟩
  | p, row :: rows =>
      match take g row p with
      | (.more, p) => ahead g fate p rows
      | (.failed e, _) => ⟨[], .error e⟩
      | (.finished none, _) => ⟨[], .ok ()⟩
      | (.finished (some out), p) => (ahead g fate p rows).cons out

variable {g : Grouping} {fate : Except QueryError Unit}

/-- A group is open that has taken the rows of a run. -/
structure HasTaken (g : Grouping) (run : List Row) (p : Progress) : Prop where
  isRun : g.IsRun run
  group : p.group = some (g.keyOf run)
  slots : g.fold g.freshSlots run = .ok p.slots

theorem fold_of_feed {row : Row} {p p' : Progress} {result : Except QueryError Unit}
    (h : feed g row p = (result, p')) :
    g.fold p.slots [row] = result.map fun _ => p'.slots := by
  obtain ⟨hresult, hp'⟩ := Prod.mk.inj h
  rw [← hresult, ← hp', Grouping.fold]
  cases Grouping.feed row g.calls p.slots with
  | mk result slots => cases result <;> rfl

theorem group_of_feed {row : Row} {p p' : Progress} {result : Except QueryError Unit}
    (h : feed g row p = (result, p')) : p'.group = p.group := by
  rw [← (Prod.mk.inj h).2]

/-- The open group takes a row, or refuses it. -/
theorem HasTaken.fold_concat {run : List Row} {p p' : Progress} (h : HasTaken g run p)
    {row : Row} {result : Except QueryError Unit} (hfeed : feed g row p = (result, p')) :
    g.fold g.freshSlots (run ++ [row]) = result.map fun _ => p'.slots := by
  rw [Grouping.fold_append, h.slots]
  exact fold_of_feed hfeed

theorem HasTaken.concat {run : List Row} {p p' : Progress} (h : HasTaken g run p)
    {row : Row} (hrow : Grouping.sameKey (g.keyOf run) (g.key row))
    (hfeed : feed g row p = (.ok (), p')) : HasTaken g (run ++ [row]) p' where
  isRun := h.isRun.concat hrow
  group := by rw [group_of_feed hfeed, h.group, Grouping.keyOf_append h.isRun.ne_nil]
  slots := h.fold_concat hfeed

theorem hasTaken_first {row : Row} {p p' : Progress}
    (hfeed : feed g row (startGroup g row p) = (.ok (), p')) : HasTaken g [row] p' where
  isRun := Grouping.isRun_singleton g row
  group := by
    rw [group_of_feed hfeed]
    rfl
  slots := fold_of_feed hfeed

/-- A refused row ends the listing. -/
theorem listing_of_fold_eq_error {run : List Row} (hrun : g.IsRun run) {e : QueryError}
    (hfold : g.fold g.freshSlots run = .error e) (rows : List Row) :
    g.listing fate (g.groups (run ++ rows)) = ⟨[], .error e⟩ := by
  obtain ⟨more, rest, hgroups, -⟩ := hrun.exists_groups_append rows
  rw [hgroups]
  refine Grouping.listing_cons_of_fold_eq_error ?_ rest
  rw [Grouping.fold_append, hfold]
  rfl

theorem emit_eq {p : Progress} {key : List Value} (h : p.group = some key) :
    emit g p = ((g.rowOf key p.slots).map some, { p with group := none }) := by
  rw [emit, h]

theorem ahead_nil (p : Progress) :
    ahead g fate p [] =
      match fate, (emit g p).1 with
      | .error e, _ => ⟨[], .error e⟩
      | .ok (), .error e => ⟨[], .error e⟩
      | .ok (), .ok row => ⟨row.toList, .ok ()⟩ := by
  unfold ahead
  rfl

theorem ahead_cons (p : Progress) (row : Row) (rows : List Row) :
    ahead g fate p (row :: rows) =
      match take g row p with
      | (.more, p) => ahead g fate p rows
      | (.failed e, _) => ⟨[], .error e⟩
      | (.finished none, _) => ⟨[], .ok ()⟩
      | (.finished (some out), p) => (ahead g fate p rows).cons out := by
  rw [ahead.eq_def]

/-- What comes from an open group is the listing of the groups that begin with it. -/
theorem ahead_of_hasTaken {run : List Row} {p : Progress} (h : HasTaken g run p)
    (rows : List Row) : ahead g fate p rows = g.listing fate (g.groups (run ++ rows)) := by
  induction rows generalizing run p with
  | nil =>
      rw [List.append_nil, h.isRun.groups_eq, Grouping.listing, h.slots, ahead_nil,
        emit_eq h.group]
      cases fate with
      | error e => rfl
      | ok u =>
          show _ = Listing.next (g.rowOf (g.keyOf run) p.slots) ⟨[], .ok ()⟩
          cases g.rowOf (g.keyOf run) p.slots with
          | error e => rfl
          | ok row => rfl
  | cons row rows ih =>
      rw [ahead_cons, take]
      simp only [h.group]
      by_cases hrow : Grouping.sameKey (g.keyOf run) (g.key row)
      · have hassoc : run ++ row :: rows = run ++ [row] ++ rows := by simp
        rw [if_pos hrow, hassoc]
        rcases hfeed : feed g row p with ⟨⟨e⟩ | ⟨⟩, p'⟩
        · have hfold := h.fold_concat hfeed
          rw [listing_of_fold_eq_error (h.isRun.concat hrow) hfold]
        · exact ih (h.concat hrow hfeed)
      · rw [if_neg hrow, emit_eq h.group, h.isRun.groups_append_cons hrow]
        obtain ⟨more, rest, hgroups, -⟩ :=
          (Grouping.isRun_singleton g row).exists_groups_append rows
        rw [List.singleton_append, List.singleton_append] at hgroups
        have hsummary : g.summary run = g.rowOf (g.keyOf run) p.slots := by
          rw [Grouping.summary, h.slots]
          rfl
        have hfirst : (row :: more).take 1 = [row] := rfl
        rw [hgroups, Grouping.listing, hsummary, hfirst]
        cases g.rowOf (g.keyOf run) p.slots with
        | error e => rfl
        | ok out =>
            dsimp only [Except.map]
            rcases hfeed : feed g row (startGroup g row { p with group := none }) with
              ⟨⟨e⟩ | ⟨⟩, p'⟩
            · have hfold : g.fold g.freshSlots [row] = .error e := fold_of_feed hfeed
              rw [hfold]
              rfl
            · have hfold : g.fold g.freshSlots [row] = .ok p'.slots := fold_of_feed hfeed
              rw [hfold, ← hgroups]
              exact congrArg (Listing.cons out) (ih (hasTaken_first hfeed))

/-- What comes while no group is open is the listing of the groups of all rows. -/
theorem ahead_of_group_eq_none {p : Progress} (h : p.group = none) (rows : List Row) :
    ahead g fate p rows = g.listing fate (g.groups rows) := by
  cases rows with
  | nil =>
      rw [ahead_nil, emit, h]
      cases fate <;> rfl
  | cons row rows =>
      rw [ahead_cons, take]
      simp only [h]
      rcases hfeed : feed g row (startGroup g row p) with ⟨⟨e⟩ | ⟨⟩, p'⟩
      · have hfold : g.fold g.freshSlots [row] = .error e := fold_of_feed hfeed
        exact (listing_of_fold_eq_error (Grouping.isRun_singleton g row) hfold rows).symm
      · exact ahead_of_hasTaken (hasTaken_first hfeed) rows

/-! ## The cursor -/

/-- The number of rows an open group adds. -/
def openCount (p : Progress) : Nat :=
  if p.group.isSome then 1 else 0

theorem openCount_le_one (p : Progress) : openCount p ≤ 1 := by
  unfold openCount
  split <;> decide

theorem length_le_openCount {p : Progress} {row : Option Row}
    (h : (emit g p).1 = .ok row) : row.toList.length ≤ openCount p := by
  cases hgroup : p.group with
  | none =>
      rw [emit, hgroup] at h
      obtain rfl := Except.ok.inj h
      exact Nat.zero_le _
  | some key =>
      have hcount : openCount p = 1 := by rw [openCount, hgroup]; rfl
      rw [hcount]
      cases row <;> simp

/-- Only an open group ends. -/
theorem openCount_of_finished {row out : Row} {p p' : Progress}
    (h : take g row p = (.finished (some out), p')) : openCount p = 1 := by
  cases hgroup : p.group with
  | some key => rw [openCount, hgroup]; rfl
  | none =>
      rw [take, hgroup] at h
      dsimp only at h
      split at h
      · cases (Prod.mk.inj h).1
      · cases (Prod.mk.inj h).1

theorem length_ahead_le (p : Progress) (rows : List Row) :
    (ahead g fate p rows).rows.length ≤ rows.length + openCount p := by
  induction rows generalizing p with
  | nil =>
      rw [ahead_nil]
      cases fate with
      | error e => exact Nat.zero_le _
      | ok u =>
          cases hemit : (emit g p).1 with
          | error e => exact Nat.zero_le _
          | ok row =>
              rw [List.length_nil, Nat.zero_add]
              exact length_le_openCount hemit
  | cons row rows ih =>
      rw [ahead_cons, List.length_cons]
      rcases htake : take g row p with ⟨⟨⟩ | ⟨_ | out⟩ | e, p'⟩
      · have hrest := ih p'
        have hcount := openCount_le_one p'
        dsimp only
        omega
      · exact Nat.zero_le _
      · have hrest := ih p'
        have hcount := openCount_le_one p'
        have hopen := openCount_of_finished htake
        simp only [Listing.cons, List.length_cons]
        omega
      · exact Nat.zero_le _

variable {σ : Type} {m : Machine σ} {ctx : Context} {store : Store}
  {InputLive InputIdle : Standing σ} {source : BindingSource} {env : Env}

theorem conduct (h : m.Conduct ctx InputLive InputIdle) (g : Grouping) :
    (machine m g).Conduct ctx (Node.Live InputLive) (Node.Idle InputIdle) :=
  Node.conduct (common m g) h

/-- What a cursor is about to hand out: the listing that lies ahead, or nothing once the row
of the last group has been handed out. -/
inductive Awaits (m : Machine σ) (ctx : Context) (store : Store) (InputLive : Standing σ)
    (source : BindingSource) (env : Env) (g : Grouping) (fate : Except QueryError Unit) :
    Listing → State σ → Prop where
  | ahead {ins : List Row} {s : State σ}
      (hdraws : Node.Draws m ctx store InputLive source env fate ins s)
      (hdone : s.run.inputDone = false) :
      Awaits m ctx store InputLive source env g fate (ahead g fate s.run ins) s
  | done {s : State σ} (hactive : s.base.state = .active) (hbound : s.base.env = some env)
      (hlive : InputLive source (some env) s.input) (hdone : s.run.inputDone = true)
      (hgroup : s.run.group = none) :
      Awaits m ctx store InputLive source env g fate ⟨[], .ok ()⟩ s

theorem Awaits.live {fate : Except QueryError Unit} {l : Listing} {s : State σ}
    (h : Awaits m ctx store InputLive source env g fate l s) :
    Node.Live InputLive source (some env) s := by
  cases h with
  | ahead hdraws => exact hdraws.live
  | done hactive hbound hlive => exact ⟨by rw [hactive]; decide, hbound, hlive⟩

theorem inputDone_of_feed {row : Row} {p p' : Progress} {result : Except QueryError Unit}
    (h : feed g row p = (result, p')) : p'.inputDone = p.inputDone := by
  rw [← (Prod.mk.inj h).2]

theorem inputDone_emit (p : Progress) : (emit g p).2.inputDone = p.inputDone := by
  unfold emit
  split <;> rfl

theorem inputDone_take (row : Row) (p : Progress) :
    (take g row p).2.inputDone = p.inputDone := by
  have hstart (q : Progress) (result : Except QueryError Unit) (q' : Progress)
      (h : feed g row (startGroup g row q) = (result, q')) : q'.inputDone = q.inputDone := by
    have hkept := inputDone_of_feed h
    exact hkept
  have hemit := inputDone_emit (g := g) p
  unfold take
  split
  · split <;> exact hstart _ _ _ ‹_›
  · split
    · split <;> exact inputDone_of_feed ‹_›
    · split
      · rename_i h
        rw [h] at hemit
        exact hemit
      · rename_i h
        rw [h] at hemit
        split <;> exact (hstart _ _ _ ‹_›).trans hemit

/-- The end of the input leads to the row of the last group, or to the end. -/
theorem flush_finds {s : State σ} (hactive : s.base.state = .active)
    (hbound : s.base.env = some env) (hlive : InputLive source (some env) s.input)
    (hdone : s.run.inputDone = true) {w : World} (hw : Calm ctx store w)
    (m : Machine σ) (fate : Except QueryError Unit) :
    Machine.Finds ctx store (Node.Live InputLive source (some env))
      (Awaits m ctx store InputLive source env g fate) (ahead g (.ok ()) s.run [])
      (flush g s w) := by
  rw [ahead_nil, flush]
  cases hgroup : s.run.group with
  | none =>
      have hemit : emit g s.run = (.ok none, s.run) := by rw [emit, hgroup]
      rw [hemit]
      exact ⟨hw, rfl, Node.live_finish hactive hbound hlive⟩
  | some key =>
      rw [emit_eq hgroup]
      cases g.rowOf key s.run.slots with
      | error e => exact ⟨hw, rfl, Node.live_of_active hactive hbound hlive⟩
      | ok row => exact ⟨hw, rfl, .done hactive hbound hlive hdone rfl⟩

/-- A search finds the first row that lies ahead. -/
theorem search_finds {fate : Except QueryError Unit} {ins : List Row} {s : State σ}
    (h : Node.Draws m ctx store InputLive source env fate ins s)
    (hdone : s.run.inputDone = false) {w : World} (hw : Calm ctx store w) {fuel : Nat}
    (hfuel : ins.length < fuel) :
    Machine.Finds ctx store (Node.Live InputLive source (some env))
      (Awaits m ctx store InputLive source env g fate) (ahead g fate s.run ins)
      (search m g ctx fuel s w) := by
  induction ins generalizing s w fuel with
  | nil =>
      obtain ⟨fuel, rfl⟩ := Nat.exists_eq_succ_of_ne_zero (Nat.ne_of_gt hfuel)
      obtain ⟨hlive, hend⟩ := h.input
      obtain ⟨input', w', hnext, hlive', hw'⟩ := hend w hw
      rw [search]
      simp only [Node.onInput, hnext]
      cases fate with
      | error e =>
          rw [ahead_nil]
          exact ⟨hw', rfl, Node.live_of_active h.active h.bound hlive'⟩
      | ok u =>
          have hemit : (emit g { s.run with inputDone := true }).1 = (emit g s.run).1 := by
            rw [emit, emit]
            cases s.run.group <;> rfl
          have hflush := flush_finds (g := g) (s := ⟨s.base, input', { s.run with
            inputDone := true }⟩) h.active h.bound hlive' rfl hw' m (.ok ())
          rw [ahead_nil, hemit, ← ahead_nil] at hflush
          exact hflush
  | cons row ins ih =>
      obtain ⟨fuel, rfl⟩ := Nat.exists_eq_succ_of_ne_zero (Nat.ne_of_gt
        (Nat.lt_of_le_of_lt (Nat.zero_le _) hfuel))
      obtain ⟨hlive, hall⟩ := h.input
      obtain ⟨-, input', w', hnext, hrest, hw'⟩ := hall w hw
      have hkept := inputDone_take (g := g) row s.run
      rw [search, ahead_cons]
      simp only [Node.onInput, hnext]
      rcases htake : take g row s.run with ⟨⟨⟩ | ⟨_ | out⟩ | e, p'⟩
      · rw [htake, hdone] at hkept
        exact ih (s := ⟨s.base, input', p'⟩) ⟨h.active, h.bound, hrest⟩ hkept hw'
          (Nat.lt_of_succ_lt_succ hfuel)
      · exact ⟨hw', rfl, Node.live_finish h.active h.bound hrest.keeps⟩
      · rw [htake, hdone] at hkept
        have hawaits := Awaits.ahead (g := g) (s := ⟨s.base.hand (some out), input', p'⟩)
          ⟨h.active, h.bound, hrest⟩ hkept
        exact ⟨hw', rfl, hawaits⟩
      · exact ⟨hw', rfl, Node.live_of_active h.active h.bound hrest.keeps⟩

theorem hands {fate : Except QueryError Unit} {l : Listing} {s : State σ}
    (h : Awaits m ctx store InputLive source env g fate l s) :
    (machine m g).Hands ctx store (Node.Live InputLive source (some env)) l.fate l.rows s := by
  refine Machine.Hands.of_finds (fun l s hs => hs.live) ?_ ?_ h
  · intro l s hs w hw
    show l.rows.length ≤ pending m ctx s w
    cases hs with
    | @ahead ins _ hdraws hdone =>
        have hpending := hdraws.input.length_le_pending hw
        have hlength : (ahead g fate s.run ins).rows.length ≤ ins.length + openCount s.run :=
          length_ahead_le s.run ins
        have hbound : pending m ctx s w = m.pending ctx s.input w + openCount s.run := by
          rw [pending, hdraws.active]
          simp only [hdone, Bool.false_eq_true, if_false]
          rfl
        omega
    | done => exact Nat.zero_le _
  · intro l s hs w hw
    show Machine.Finds ctx store _ _ _ (next m g ctx s w)
    cases hs with
    | ahead hdraws hdone =>
        have hpending := hdraws.input.length_le_pending hw
        rw [next, CursorBase.checkNext_eq_ok hdraws.active]
        simp only [hdone, Bool.false_eq_true, if_false]
        refine search_finds hdraws hdone hw (Nat.lt_succ_of_le ?_)
        exact Nat.le_trans hpending (Nat.le_mul_of_pos_left _ (by decide))
    | done hactive hbound hlive hdone hgroup =>
        rw [next, CursorBase.checkNext_eq_ok hactive]
        simp only [hdone, if_true]
        have hflush := flush_finds (g := g) hactive hbound hlive hdone hw m fate
        rw [ahead_nil, emit, hgroup] at hflush
        exact hflush

theorem opens {listing : Env → Except QueryError Listing}
    (h : m.Opens ctx store InputLive InputIdle listing) (g : Grouping) :
    (machine m g).Opens ctx store (Node.Live InputLive) (Node.Idle InputIdle)
      fun env => (listing env).map fun l => g.listing l.fate (g.groups l.rows) := by
  have hopen : (machine m g).openRun = Node.openRun m fun _ => .start := rfl
  refine Node.opens hopen (fun env l => g.listing l.fate (g.groups l.rows)) h ?_
  intro source env l s _ hrun hdraws
  have hgroup : s.run.group = none := by rw [hrun]; rfl
  have hdone : s.run.inputDone = false := by rw [hrun]; rfl
  have hhands := hands (.ahead (g := g) hdraws hdone)
  rw [ahead_of_group_eq_none hgroup] at hhands
  exact hhands

end AggregateCursor
end OrderedQuery
