import OrderedQuery.Proofs.Plan.Summaries

/-!
# Groups after a failure

A call that fails in the middle of a group leaves the cursor open, and further calls go on with what
the slots of the group have taken.  `Grouping.handed` tells which rows come from all calls of a run,
failures included: the row of a group follows the first row of the next group, unless that row is
refused.  The row of the group is lost then, although all of its rows were taken.
-/

namespace OrderedQuery

namespace Machine

variable {σ : Type}

/-- The replies to calls of `next`, and what they leave behind. -/
structure Asked (σ : Type) where
  replies : List (Except QueryError (Option Row))
  state : σ
  world : World

/-- Calls `next` a number of times, whatever the replies are. -/
def ask (m : Machine σ) (ctx : Context) : Nat → σ → World → Asked σ
  | 0, s, w => ⟨[], s, w⟩
  | n + 1, s, w =>
      let o := m.next ctx s w
      let rest := m.ask ctx n o.state o.world
      { rest with replies := o.result :: rest.replies }

/-- The row in a reply. -/
def rowIn : Except QueryError (Option Row) → Option Row
  | .ok row => row
  | .error _ => none

/-- A reply that there are no more rows. -/
def isEnd : Except QueryError (Option Row) → Bool
  | .ok none => true
  | _ => false

/-- The rows in the replies. -/
def Asked.rows (a : Asked σ) : List Row :=
  a.replies.filterMap rowIn

/-- One of the replies is that there are no more rows. -/
def Asked.ended (a : Asked σ) : Bool :=
  a.replies.any isEnd

variable {m : Machine σ} {ctx : Context} {s : σ} {w : World}

theorem ask_one {reply : Except QueryError (Option Row)}
    (hreply : (m.next ctx s w).result = reply) :
    m.ask ctx 1 s w = ⟨[reply], (m.next ctx s w).state, (m.next ctx s w).world⟩ := by
  rw [← hreply]
  rfl

/-- The replies to more calls come after those to the first ones. -/
theorem ask_add (j k : Nat) :
    m.ask ctx (j + k) s w =
      { m.ask ctx k (m.ask ctx j s w).state (m.ask ctx j s w).world with
        replies := (m.ask ctx j s w).replies ++
          (m.ask ctx k (m.ask ctx j s w).state (m.ask ctx j s w).world).replies } := by
  induction j generalizing s w with
  | zero => rw [Nat.zero_add]; rfl
  | succ j ih =>
      rw [Nat.add_right_comm, ask, ih]
      rfl

theorem rows_ask_add (j k : Nat) :
    (m.ask ctx (j + k) s w).rows = (m.ask ctx j s w).rows ++
      (m.ask ctx k (m.ask ctx j s w).state (m.ask ctx j s w).world).rows := by
  rw [ask_add]
  exact List.filterMap_append

theorem ended_ask_add (j k : Nat) :
    (m.ask ctx (j + k) s w).ended = ((m.ask ctx j s w).ended ||
      (m.ask ctx k (m.ask ctx j s w).state (m.ask ctx j s w).world).ended) := by
  rw [ask_add]
  exact List.any_append

theorem rows_ask_succ (n : Nat) :
    (m.ask ctx (n + 1) s w).rows = (rowIn (m.next ctx s w).result).toList ++
      (m.ask ctx n (m.next ctx s w).state (m.next ctx s w).world).rows := by
  rw [ask, Asked.rows, List.filterMap_cons]
  cases rowIn (m.next ctx s w).result <;> rfl

end Machine

namespace Grouping

variable {g : Grouping} {slots taken : List Slot} {run rows : List Row} {row : Row} {ended : Bool}
  {rest : List (List Row)}

/-- Gives rows to the slots of a group, whether or not they are refused. -/
def offer (g : Grouping) (slots : List Slot) (rows : List Row) : List Slot :=
  rows.foldl (fun slots row => (feed row g.calls slots).2) slots

/-- The row that is made of what the slots of a group have taken, if there is one. -/
def leftover (g : Grouping) (run : List Row) : Option Row :=
  (g.rowOf (g.keyOf run) (g.offer g.freshSlots run)).toOption

/-- The first row of a group is taken by all of its slots. -/
def welcomes (g : Grouping) : List Row → Bool
  | [] => false
  | row :: _ => (feed row g.calls g.freshSlots).1.isOk

/-- Cuts rows into groups, the first of which may be open already.  Where a group has no row, the
row that ends it is passed over. -/
def cut (g : Grouping) : Option (List Row) → List Row → List (List Row)
  | current, [] => current.toList
  | none, row :: rows => g.cut (some [row]) rows
  | some run, row :: rows =>
      if sameKey (g.keyOf run) (g.key row) then g.cut (some (run ++ [row])) rows
      else run :: g.cut (if (g.leftover run).isSome then some [row] else none) rows

/-- The rows that are handed out for groups: that of the last one at the end of the input, the
others when the next group begins with a row that is taken. -/
def handed (g : Grouping) (ended : Bool) : List (List Row) → List Row
  | [] => []
  | [run] => if ended then (g.leftover run).toList else []
  | run :: next :: rest =>
      (if g.welcomes next then (g.leftover run).toList else []) ++ g.handed ended (next :: rest)

theorem offer_concat :
    g.offer slots (rows ++ [row]) = (feed row g.calls (g.offer slots rows)).2 := by
  rw [offer, List.foldl_concat]
  rfl

theorem offer_of_fold (h : g.fold slots rows = .ok taken) : g.offer slots rows = taken := by
  induction rows generalizing slots with
  | nil => exact Except.ok.inj h
  | cons row rows ih =>
      rw [fold] at h
      split at h
      · cases h
      · rename_i hfeed
        rw [offer, List.foldl_cons, hfeed]
        exact ih h

/-- The row that is left of a group whose values are all accepted is the row of the group. -/
theorem summarizes_of_leftover (haccepts : ∀ c ∈ g.calls, c.Accepts run)
    (h : g.leftover run = some row) : g.Summarizes run row := by
  obtain ⟨slots, hfold, hslots⟩ := fold_took haccepts
  rw [leftover, offer_of_fold hfold] at h
  cases hrow : g.rowOf (g.keyOf run) slots with
  | error e => rw [hrow] at h; cases h
  | ok out =>
      rw [hrow] at h
      obtain rfl := Option.some.inj h
      exact summarizes_of_rowOf hslots hrow

/-- A group that is open begins the groups that are cut. -/
theorem exists_cut_eq_cons (g : Grouping) (run rows : List Row) :
    ∃ more rest, g.cut (some run) rows = (run ++ more) :: rest := by
  induction rows generalizing run with
  | nil => exact ⟨[], [], by rw [List.append_nil]; rfl⟩
  | cons row rows ih =>
      rw [cut]
      split
      · obtain ⟨more, rest, hcut⟩ := ih (run ++ [row])
        exact ⟨row :: more, rest, by rw [hcut, List.append_assoc]; rfl⟩
      · exact ⟨[], _, by rw [List.append_nil]⟩

/-- If every group has a row, the groups are the maximal runs. -/
theorem cut_eq_groups (hrun : g.IsRun run)
    (h : ∀ group ∈ g.cut (some run) rows, (g.leftover group).isSome) :
    g.cut (some run) rows = g.groups (run ++ rows) := by
  induction rows generalizing run with
  | nil => rw [List.append_nil, hrun.groups_eq]; rfl
  | cons row rows ih =>
      rw [cut] at h ⊢
      split at h
      · rename_i hrow
        rw [if_pos hrow, ih (hrun.concat hrow) h, List.append_assoc, List.singleton_append]
      · rename_i hrow
        obtain ⟨hfirst, hrest⟩ := List.forall_mem_cons.mp h
        rw [if_pos hfirst] at hrest
        rw [if_neg hrow, if_pos hfirst, ih (isRun_singleton g row) hrest,
          hrun.groups_append_cons hrow]
        rfl

theorem maximalRuns_cut (h : ∀ group ∈ g.cut none rows, (g.leftover group).isSome) :
    Row.MaximalRuns g.fields rows (g.cut none rows) := by
  rw [maximalRuns_iff]
  cases rows with
  | nil => rfl
  | cons row rows => exact cut_eq_groups (isRun_singleton g row) h

theorem handed_cons_of_leftover_eq_none (h : g.leftover run = none) :
    g.handed ended (run :: rest) = g.handed ended rest := by
  cases rest with
  | nil => simp [handed, h]
  | cons next rest => simp [handed, h]

/-- A group without a row is passed over, together with the row that ends it. -/
theorem handed_cut_cons_of_leftover_eq_none (hrow : ¬ sameKey (g.keyOf run) (g.key row))
    (h : g.leftover run = none) (ended : Bool) (rows : List Row) :
    g.handed ended (g.cut (some run) (row :: rows)) = g.handed ended (g.cut none rows) := by
  rw [cut, if_neg hrow, handed_cons_of_leftover_eq_none h, h]
  rfl

/-- The row of a group is handed out if the row that ends it is taken. -/
theorem handed_cut_cons_of_leftover_eq_some (hrow : ¬ sameKey (g.keyOf run) (g.key row))
    {out : Row} (h : g.leftover run = some out) (ended : Bool) (rows : List Row) :
    g.handed ended (g.cut (some run) (row :: rows)) =
      (if (feed row g.calls g.freshSlots).1.isOk then some out else none).toList ++
        g.handed ended (g.cut (some [row]) rows) := by
  obtain ⟨more, rest, hnext⟩ := g.exists_cut_eq_cons [row] rows
  rw [cut, if_neg hrow, h, if_pos (by rfl), hnext, handed, h]
  congr 1
  rw [welcomes.eq_def]
  dsimp only [List.singleton_append]
  split <;> rfl

end Grouping

namespace AggregateCursor

open Machine (rowIn isEnd)

variable {σ : Type} {m : Machine σ} {g : Grouping} {ctx : Context} {current : Option (List Row)}
  {p : Progress} {row : Row} {s s' s'' : State σ} {w w' w'' : World} {rows rows' : List Row}

/-- The slots of the open group have been offered its rows. -/
inductive HasOffered (g : Grouping) : Option (List Row) → Progress → Prop where
  | none {p : Progress} (hgroup : p.group = none) : HasOffered g none p
  | some {run : List Row} {p : Progress} (hrun : g.IsRun run) (hgroup : p.group = g.keyOf run)
      (hslots : p.slots = g.offer g.freshSlots run) : HasOffered g run p

theorem hasOffered_startGroup (g : Grouping) (row : Row) (p : Progress) :
    HasOffered g (some [row]) (feed g row (startGroup g row p)).2 :=
  .some (Grouping.isRun_singleton g row) rfl rfl

theorem HasOffered.atEnd (h : HasOffered g current p) :
    HasOffered g current { p with inputDone := true } := by
  cases h with
  | none hgroup => exact .none hgroup
  | some hrun hgroup hslots => exact .some hrun hgroup hslots

/-- The row that a step hands out. -/
def Step.out : Step → Option Row
  | .finished row => row
  | _ => none

/-! ### One row of the input -/

theorem take_of_group_eq_none (h : p.group = none) (row : Row) :
    (take g row p).1.out = none ∧ (take g row p).2 = (feed g row (startGroup g row p)).2 := by
  rw [take, h]
  dsimp only
  obtain ⟨e | _, p'⟩ := feed g row (startGroup g row p) <;> exact ⟨rfl, rfl⟩

section

variable {key : List Value} (hgroup : p.group = some key)

include hgroup

theorem take_of_sameKey (hrow : Grouping.sameKey key (g.key row)) :
    (take g row p).1.out = none ∧ (take g row p).2 = (feed g row p).2 := by
  rw [take, hgroup]
  dsimp only
  rw [if_pos hrow]
  obtain ⟨e | _, p'⟩ := feed g row p <;> exact ⟨rfl, rfl⟩

/-- A group without a row is given up together with the row that ends it. -/
theorem take_of_rowOf_eq_error (hrow : ¬Grouping.sameKey key (g.key row)) {e : QueryError}
    (h : g.rowOf key p.slots = .error e) :
    (take g row p).1.out = none ∧ (take g row p).2 = { p with group := none } := by
  rw [take, hgroup]
  dsimp only
  rw [if_neg hrow, emit_eq hgroup, h]
  exact ⟨rfl, rfl⟩

/-- The row of a group is handed out if the row that ends it is taken. -/
theorem take_of_rowOf_eq_ok (hrow : ¬Grouping.sameKey key (g.key row)) {out : Row}
    (h : g.rowOf key p.slots = .ok out) :
    (take g row p).1.out =
        (if (Grouping.feed row g.calls g.freshSlots).1.isOk then some out else none) ∧
      (take g row p).2 = (feed g row (startGroup g row { p with group := none })).2 := by
  rw [take, hgroup]
  dsimp only
  rw [if_neg hrow, emit_eq hgroup, h]
  dsimp only [Except.map, feed, startGroup]
  obtain ⟨e | _, slots⟩ := Grouping.feed row g.calls g.freshSlots <;> exact ⟨rfl, rfl⟩

end

/-- What a row of the input leads to, however things go on. -/
theorem take_handed (h : HasOffered g current p) (row : Row) :
    ∃ current', HasOffered g current' (take g row p).2 ∧ ∀ ended rows,
      g.handed ended (g.cut current (row :: rows)) =
        (take g row p).1.out.toList ++ g.handed ended (g.cut current' rows) := by
  cases h with
  | none hgroup =>
      obtain ⟨hout, htake⟩ := take_of_group_eq_none (g := g) hgroup row
      rw [hout, htake]
      exact ⟨some [row], hasOffered_startGroup g row p, fun _ _ => rfl⟩
  | @some run p hrun hgroup hslots =>
      by_cases hrow : Grouping.sameKey (g.keyOf run) (g.key row)
      · obtain ⟨hout, htake⟩ := take_of_sameKey hgroup hrow
        rw [hout, htake]
        refine ⟨some (run ++ [row]), .some (hrun.concat hrow) ?_ ?_, fun ended rows => ?_⟩
        · rw [Grouping.keyOf_append hrun.ne_nil, ← hgroup]
          rfl
        · rw [Grouping.offer_concat, ← hslots]
          rfl
        · rw [Grouping.cut, if_pos hrow]
          rfl
      · cases hleft : g.rowOf (g.keyOf run) (g.offer g.freshSlots run) with
        | error e =>
            have hnone : g.leftover run = none := by rw [Grouping.leftover, hleft]; rfl
            rw [← hslots] at hleft
            obtain ⟨hout, htake⟩ := take_of_rowOf_eq_error hgroup hrow hleft
            rw [hout, htake]
            exact ⟨none, .none rfl, Grouping.handed_cut_cons_of_leftover_eq_none hrow hnone⟩
        | ok out =>
            have hsome : g.leftover run = some out := by rw [Grouping.leftover, hleft]; rfl
            rw [← hslots] at hleft
            obtain ⟨hout, htake⟩ := take_of_rowOf_eq_ok hgroup hrow hleft
            rw [hout, htake]
            exact ⟨some [row], hasOffered_startGroup g row _,
              Grouping.handed_cut_cons_of_leftover_eq_some hrow hsome⟩

/-! ### Calls of the cursor -/

/-- A cursor whose input has not ended. -/
structure Reading (g : Grouping) (current : Option (List Row)) (s : State σ) : Prop where
  inputDone : s.run.inputDone = false
  offered : HasOffered g current s.run

/-- A cursor that has handed out all it had. -/
structure Over (s : State σ) : Prop where
  inputDone : s.run.inputDone = true
  group : s.run.group = none

/-- Calls of the cursor lead to a number of calls of its input, and hand out what the rows of the
input lead to. -/
inductive Reads (m : Machine σ) (g : Grouping) (ctx : Context) (current : Option (List Row))
    (s : State σ) (w : World) (rows : List Row) (s' : State σ) (w' : World) : Prop where
  | reading {current' : Option (List Row)} (k : Nat)
      (hinput : s'.input = (m.ask ctx k s.input w).state)
      (hworld : w' = (m.ask ctx k s.input w).world)
      (hended : (m.ask ctx k s.input w).ended = false)
      (hs' : Reading g current' s')
      (hrows : ∀ ended more, g.handed ended (g.cut current ((m.ask ctx k s.input w).rows ++ more)) =
        rows ++ g.handed ended (g.cut current' more))
  | ended (k : Nat)
      (hinput : s'.input = (m.ask ctx k s.input w).state)
      (hworld : w' = (m.ask ctx k s.input w).world)
      (hended : (m.ask ctx k s.input w).ended = true)
      (hs' : Over s')
      (hrows : g.handed true (g.cut current (m.ask ctx k s.input w).rows) = rows)

/-- Further calls go on from where the first ones have led. -/
theorem Reads.trans {current' : Option (List Row)} (k : Nat)
    (hinput : s'.input = (m.ask ctx k s.input w).state)
    (hworld : w' = (m.ask ctx k s.input w).world)
    (hended : (m.ask ctx k s.input w).ended = false)
    (hrows : ∀ ended more, g.handed ended (g.cut current ((m.ask ctx k s.input w).rows ++ more)) =
      rows ++ g.handed ended (g.cut current' more))
    (h : Reads m g ctx current' s' w' rows' s'' w'') :
    Reads m g ctx current s w (rows ++ rows') s'' w'' := by
  subst hworld
  cases h with
  | reading k' hinput' hworld' hended' hs'' hrows' =>
      rw [hinput] at hinput' hworld' hended' hrows'
      refine .reading (k + k') ?_ ?_ ?_ hs'' fun ended more => ?_
      · rw [hinput', Machine.ask_add]
      · rw [hworld', Machine.ask_add]
      · rw [Machine.ended_ask_add, hended, hended']
        rfl
      · rw [Machine.rows_ask_add, List.append_assoc, hrows, hrows', List.append_assoc]
  | ended k' hinput' hworld' hended' hs'' hrows' =>
      rw [hinput] at hinput' hworld' hended' hrows'
      refine .ended (k + k') ?_ ?_ ?_ hs'' ?_
      · rw [hinput', Machine.ask_add]
      · rw [hworld', Machine.ask_add]
      · rw [Machine.ended_ask_add, hended']
        exact Bool.or_true _
      · rw [Machine.rows_ask_add, hrows, hrows']

/-- The end of the input leads to the row of the last group. -/
theorem flush_over (hdone : s.run.inputDone = true) (h : HasOffered g current s.run) :
    Over (flush g s w).state ∧ (flush g s w).state.input = s.input ∧
      (flush g s w).world = w ∧
      g.handed true current.toList = (rowIn (flush g s w).result).toList := by
  rw [flush]
  cases h with
  | none hgroup =>
      have hemit : emit g s.run = (.ok none, s.run) := by rw [emit, hgroup]
      rw [hemit]
      exact ⟨⟨hdone, hgroup⟩, rfl, rfl, rfl⟩
  | @some run _ hrun hgroup hslots =>
      have hhanded : g.handed true [run] = (g.leftover run).toList := rfl
      rw [Option.toList_some, hhanded, Grouping.leftover, emit_eq hgroup, hslots]
      cases g.rowOf (g.keyOf run) (g.offer g.freshSlots run) with
      | error e => exact ⟨⟨hdone, rfl⟩, rfl, rfl, rfl⟩
      | ok out => exact ⟨⟨hdone, rfl⟩, rfl, rfl, rfl⟩

theorem search_reads (h : Reading g current s) (fuel : Nat) :
    Reads m g ctx current s w (rowIn (search m g ctx fuel s w).result).toList
      (search m g ctx fuel s w).state (search m g ctx fuel s w).world := by
  induction fuel generalizing current s w with
  | zero => exact .reading 0 rfl rfl rfl h fun ended more => rfl
  | succ fuel ih =>
      rw [search]
      dsimp only [Node.onInput]
      cases hreply : (m.next ctx s.input w).result with
      | error e =>
          have hone := Machine.ask_one hreply
          have hs' : Reading g current { s with input := (m.next ctx s.input w).state } :=
            ⟨h.inputDone, h.offered⟩
          refine .reading 1 ?_ ?_ ?_ hs' ?_ <;> rw [hone]
          · rfl
          · intro ended more
            rfl
      | ok reply =>
          have hone := Machine.ask_one hreply
          cases reply with
          | none =>
              obtain ⟨hover, hinput, hworld, hhanded⟩ :=
                flush_over (s := ⟨s.base, (m.next ctx s.input w).state,
                  { s.run with inputDone := true }⟩) (w := (m.next ctx s.input w).world) (g := g)
                  rfl h.offered.atEnd
              refine .ended 1 ?_ ?_ ?_ hover ?_ <;> rw [hone]
              · exact hinput
              · exact hworld
              · rfl
              · rw [← hhanded, ← Grouping.cut.eq_1]
                rfl
          | some row =>
              obtain ⟨current', hoffered, hhanded⟩ := take_handed h.offered row
              have hkept := inputDone_take (g := g) row s.run
              rw [h.inputDone] at hkept
              have hrows : ∀ ended more, g.handed ended (g.cut current
                  ((m.ask ctx 1 s.input w).rows ++ more)) =
                  (take g row s.run).1.out.toList ++ g.handed ended (g.cut current' more) := by
                rw [hone]
                exact hhanded
              dsimp only
              generalize take g row s.run = x at hoffered hkept hrows
              obtain ⟨step, p'⟩ := x
              cases step with
              | more =>
                  refine .trans 1 ?_ ?_ ?_ hrows
                    (ih (s := ⟨s.base, (m.next ctx s.input w).state, p'⟩) ⟨hkept, hoffered⟩) <;>
                  rw [hone]
                  rfl
              | finished out =>
                  refine .reading 1 ?_ ?_ ?_ ⟨hkept, hoffered⟩ hrows <;> rw [hone]
                  rfl
              | failed e =>
                  refine .reading 1 ?_ ?_ ?_ ⟨hkept, hoffered⟩ hrows <;> rw [hone]
                  rfl

/-- A call leads on from the open group. -/
theorem next_reads (m : Machine σ) (ctx : Context) (h : Reading g current s) (w : World) :
    Reads m g ctx current s w (rowIn ((machine m g).next ctx s w).result).toList
      ((machine m g).next ctx s w).state ((machine m g).next ctx s w).world := by
  show Reads m g ctx current s w (rowIn (next m g ctx s w).result).toList
    (next m g ctx s w).state (next m g ctx s w).world
  rw [next]
  cases s.base.checkNext with
  | error e => exact .reading 0 rfl rfl rfl h fun ended more => rfl
  | ok u =>
      dsimp only
      rw [h.inputDone]
      exact search_reads h _

/-- A cursor that has handed out all it had neither hands out a row nor calls its input. -/
theorem next_over (m : Machine σ) (g : Grouping) (ctx : Context) (h : Over s) (w : World) :
    Over ((machine m g).next ctx s w).state ∧
      ((machine m g).next ctx s w).state.input = s.input ∧
      ((machine m g).next ctx s w).world = w ∧
      rowIn ((machine m g).next ctx s w).result = none := by
  show Over (next m g ctx s w).state ∧ (next m g ctx s w).state.input = s.input ∧
    (next m g ctx s w).world = w ∧ rowIn (next m g ctx s w).result = none
  rw [next]
  cases s.base.checkNext with
  | error e => exact ⟨h, rfl, rfl, rfl⟩
  | ok u =>
      dsimp only
      rw [h.inputDone]
      obtain ⟨hover, hinput, hworld, hhanded⟩ :=
        flush_over (w := w) h.inputDone (.none h.group : HasOffered g none s.run)
      exact ⟨hover, hinput, hworld, Option.toList_eq_nil_iff.mp hhanded.symm⟩

theorem ask_over (m : Machine σ) (g : Grouping) (ctx : Context) (h : Over s) (n : Nat)
    (w : World) :
    Over ((machine m g).ask ctx n s w).state ∧
      ((machine m g).ask ctx n s w).state.input = s.input ∧
      ((machine m g).ask ctx n s w).world = w ∧ ((machine m g).ask ctx n s w).rows = [] := by
  induction n generalizing s w with
  | zero => exact ⟨h, rfl, rfl, rfl⟩
  | succ n ih =>
      obtain ⟨hover, hinput, hworld, hrow⟩ := next_over m g ctx h w
      obtain ⟨hover', hinput', hworld', hrows⟩ := ih hover _
      refine ⟨hover', hinput'.trans hinput, hworld'.trans hworld, ?_⟩
      rw [Machine.rows_ask_succ, hrow, hrows]
      rfl

/-- All calls of a run lead on from the open group. -/
theorem ask_reads (m : Machine σ) (ctx : Context) (h : Reading g current s) (n : Nat) (w : World) :
    Reads m g ctx current s w ((machine m g).ask ctx n s w).rows
      ((machine m g).ask ctx n s w).state ((machine m g).ask ctx n s w).world := by
  induction n generalizing current s w with
  | zero => exact .reading 0 rfl rfl rfl h fun ended more => rfl
  | succ n ih =>
      rw [Machine.rows_ask_succ]
      cases next_reads m ctx h w with
      | reading k hinput hworld hended hs' hrows =>
          exact .trans k hinput hworld hended hrows (ih hs' _)
      | ended k hinput hworld hended hs' hrows =>
          obtain ⟨hover, hinput', hworld', hnone⟩ := ask_over m g ctx hs' n
            ((machine m g).next ctx s w).world
          rw [hnone, List.append_nil]
          exact .ended k (hinput'.trans hinput) (hworld'.trans hworld) hended hover hrows

theorem reading_of_openRun (h : ((machine m g).openRun ctx s w).result = .ok ()) :
    Reading g none ((machine m g).openRun ctx s w).state := by
  change (Node.openRun m (fun _ => .start) ctx s w).result = .ok () at h
  show Reading g none (Node.openRun m (fun _ => .start) ctx s w).state
  rw [Node.openRun] at h ⊢
  cases hbegin : s.base.beginOpen with
  | error e => rw [hbegin] at h; cases h
  | ok base =>
      rw [hbegin] at h
      dsimp only at h ⊢
      split at h
      · cases h
      · exact ⟨rfl, .none rfl⟩

/-- Whatever the replies to the calls of a run are, failures included, the rows among them are
those that `Grouping.handed` tells for the groups of the rows that the input has replied with.  A
group whose values were all accepted is handed out as it is, or not at all; and the groups are the
maximal runs, as long as each of them has a row. -/
theorem rows_of_ask (hopen : ((machine m g).openRun ctx s w).result = .ok ()) (n : Nat) :
    let opened := (machine m g).openRun ctx s w
    let asked := (machine m g).ask ctx n opened.state opened.world
    ∃ k, let taken := m.ask ctx k opened.state.input opened.world
      let groups := g.cut none taken.rows
      asked.state.input = taken.state ∧ asked.world = taken.world ∧
        asked.rows = g.handed taken.ended groups ∧
        (∀ group ∈ groups, (∀ c ∈ g.calls, c.Accepts group) →
          ∀ row, g.leftover group = some row → g.Summarizes group row) ∧
        ((∀ group ∈ groups, (g.leftover group).isSome) →
          Row.MaximalRuns g.fields taken.rows groups) := by
  intro opened asked
  have hreading : Reading g none opened.state := reading_of_openRun hopen
  have haccepted (groups : List (List Row)) : ∀ group ∈ groups,
      (∀ c ∈ g.calls, c.Accepts group) →
        ∀ row, g.leftover group = some row → g.Summarizes group row :=
    fun group _ haccepts row hrow => Grouping.summarizes_of_leftover haccepts hrow
  cases ask_reads m ctx hreading n opened.world with
  | @reading current' k hinput hworld hended hs' hrows =>
      refine ⟨k, hinput, hworld, ?_, haccepted _, Grouping.maximalRuns_cut⟩
      have hlast : g.handed false (g.cut current' []) = [] := by
        cases current' <;> rfl
      have hall := hrows false []
      rw [List.append_nil, hlast, List.append_nil] at hall
      rw [hended, hall]
  | ended k hinput hworld hended hs' hrows =>
      refine ⟨k, hinput, hworld, ?_, haccepted _, Grouping.maximalRuns_cut⟩
      rw [hended, hrows]

/-- A product of strings is refused, and then handed out all the same. -/
theorem rows_of_ask_product :
    let pair : RowType := .ofFields [.int, .string]
    let first : Row := ⟨pair, [.int 1, .null], rfl⟩
    let second : Row := ⟨pair, [.int 2, .string "x"], rfl⟩
    let input := ValuesCursor.machine [first, second]
    let g : Grouping := ⟨1, [⟨"product", some 1, .product "product"⟩], .ofFields [.int, .int]⟩
    let cursor := machine input g
    let made := (World.ofEngine .empty).newContext {}
    let opened := cursor.openRun made.1 (cursor.fresh (.ofEnv .root)) made.2
    let asked := cursor.ask made.1 3 opened.state opened.world
    asked.rows.map Row.values = [[.int 2, .null]] ∧
      ∃ k, let taken := input.ask made.1 k opened.state.input opened.world
        asked.rows = g.handed taken.ended (g.cut none taken.rows) := by
  intro pair first second input g cursor made opened asked
  have hopen : opened.result = .ok () := rfl
  obtain ⟨k, -, -, hrows, -⟩ := rows_of_ask hopen 3
  refine ⟨?_, k, hrows⟩
  decide +kernel

/-- After a failure, an incomplete row is handed out, and the row of a complete group is not:
the second row of the input ends the group of the first one and is then refused. -/
theorem not_complete_after_refusal :
    let pair : RowType := .ofFields [.int, .string]
    let first : Row := ⟨pair, [.int 1, .null], rfl⟩
    let second : Row := ⟨pair, [.int 2, .string "x"], rfl⟩
    let g : Grouping := ⟨1, [⟨"product", some 1, .product "product"⟩], .ofFields [.int, .int]⟩
    let cursor := machine (ValuesCursor.machine [first, second]) g
    let made := (World.ofEngine .empty).newContext {}
    let opened := cursor.openRun made.1 (cursor.fresh (.ofEnv .root)) made.2
    let asked := cursor.ask made.1 3 opened.state opened.world
    opened.result = .ok () ∧ asked.ended = true ∧
      (¬∀ row ∈ asked.rows, ∃ group ∈ g.groups [first, second], g.Summarizes group row) ∧
      ¬∀ before group next after, g.groups [first, second] = before ++ group :: next :: after →
        (∀ earlier ∈ before ++ [group], ∀ c ∈ g.calls, c.Accepts earlier) →
          ∃ row ∈ asked.rows, g.Summarizes group row := by
  intro pair first second g cursor made opened asked
  have hgroups : g.groups [first, second] = [[first], [second]] := rfl
  have hvalues : asked.rows.map Row.values = [[.int 2, .null]] := by decide +kernel
  -- the first group is none of the rows that are handed out
  have hlost : ∀ row ∈ asked.rows, ¬g.Summarizes [first] row := by
    intro row hrow h
    obtain ⟨results, hresults, -⟩ := h.values
    have hmem := List.mem_map_of_mem (f := Row.values) hrow
    rw [hvalues, List.mem_singleton, hresults] at hmem
    cases hmem
  refine ⟨rfl, by decide +kernel, ?_, ?_⟩
  · intro hcomplete
    obtain ⟨row, hrow, -⟩ := List.map_eq_singleton_iff.mp hvalues
    have hmem : row ∈ asked.rows := by rw [hrow]; exact List.mem_singleton_self row
    obtain ⟨group, hgroup, hsummarizes⟩ := hcomplete row hmem
    rw [hgroups, List.mem_pair] at hgroup
    rcases hgroup with rfl | rfl
    · exact hlost row hmem hsummarizes
    · obtain ⟨results, -, hresults⟩ := hsummarizes.values
      obtain ⟨v, -, hv, -⟩ := List.forall₂_cons_left_iff.mp hresults
      cases hv
  · intro hhanded
    have haccepts : ∀ earlier ∈ [[first]], ∀ c ∈ g.calls, c.Accepts earlier := by
      intro earlier hearlier c hc
      rw [List.mem_singleton.mp hearlier, List.mem_singleton.mp hc]
      exact ⟨_, rfl⟩
    obtain ⟨row, hrow, hsummarizes⟩ := hhanded [] [first] [second] [] hgroups haccepts
    exact hlost row hrow hsummarizes

end AggregateCursor
end OrderedQuery
