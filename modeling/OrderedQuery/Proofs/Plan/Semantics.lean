import Mathlib.Data.List.Forall2
import Mathlib.Data.List.SplitBy
import OrderedQuery.Plan.Basic
import OrderedQuery.Proofs.Cursor.Leaves
import OrderedQuery.Proofs.Plan.StableSort

/-!
# What plans mean

`Plan.Denotes` gives the rows of a plan operator by operator, as if nothing could fail.
`Plan.listing` also tells what happens if something does: rows are computed one by one, each
from as few rows of the input as possible, and the first step that fails ends the listing.
A sort takes all rows of its input before there is a first row, so that its failures belong
to the opening of the plan.

A parallel map has no listing, since its rows come in no fixed order.
-/

namespace OrderedQuery

/-- A computation in two steps succeeds if both do. -/
theorem Except.bind_eq_ok_iff {ε α β : Type} {x : Except ε α} {f : α → Except ε β} {b : β} :
    (x >>= f) = .ok b ↔ ∃ a, x = .ok a ∧ f a = .ok b := by
  cases x with
  | error e => simp [bind, Except.bind]
  | ok a => simp [bind, Except.bind]

theorem Except.map_eq_ok_iff {ε α β : Type} {x : Except ε α} {f : α → β} {b : β} :
    x.map f = .ok b ↔ ∃ a, x = .ok a ∧ f a = b := by
  cases x with
  | error e => simp [Except.map]
  | ok a => simp [Except.map]

theorem Except.map_eq_error_iff {ε α β : Type} {x : Except ε α} {f : α → β} {e : ε} :
    x.map f = .error e ↔ x = .error e := by
  cases x with
  | error e' => simp [Except.map]
  | ok a => simp [Except.map]

namespace Listing

/-- All rows, or the error that ends the listing. -/
def outcome (l : Listing) : Except QueryError (List Row) :=
  l.fate.map fun _ => l.rows

/-- A listing whose first row has to be computed. -/
def next (head : Except QueryError Row) (rest : Listing) : Listing :=
  match head with
  | .error e => ⟨[], .error e⟩
  | .ok row => rest.cons row

theorem next_eq_ok_iff {head : Except QueryError Row} {rest : Listing} {rows : List Row} :
    next head rest = ⟨rows, .ok ()⟩ ↔
      ∃ row more, head = .ok row ∧ rest = ⟨more, .ok ()⟩ ∧ rows = row :: more := by
  obtain ⟨more, fate⟩ := rest
  cases head with
  | error e => simp [next]
  | ok row => simp [next, cons, and_comm, eq_comm]

/-- A listing in which one row comes from each row ends properly if its input does and no row
fails. -/
theorem pass_map_some_eq_ok_iff {f : Row → Except QueryError Row} {ins outs : List Row}
    {fate : Except QueryError Unit} :
    pass (fun row => (f row).map some) ins fate = ⟨outs, .ok ()⟩ ↔
      fate = .ok () ∧ List.Forall₂ (fun row out => f row = .ok out) ins outs := by
  induction ins generalizing outs with
  | nil => simp [pass, and_comm, eq_comm]
  | cons row ins ih =>
      have hstep : pass (fun row => (f row).map some) (row :: ins) fate =
          next (f row) (pass (fun row => (f row).map some) ins fate) := by
        rw [pass]
        cases f row with
        | error e => rfl
        | ok out => rfl
      rw [hstep, next_eq_ok_iff, List.forall₂_cons_left_iff]
      constructor
      · rintro ⟨out, more, hout, hmore, rfl⟩
        obtain ⟨hfate, hall⟩ := ih.mp hmore
        exact ⟨hfate, out, more, hout, hall, rfl⟩
      · rintro ⟨hfate, out, more, hout, hall, rfl⟩
        exact ⟨out, more, hout, ih.mpr ⟨hfate, hall⟩, rfl⟩

end Listing

/-- The listing of a scan ends properly if all of its keys are well-formed. -/
theorem IndexScan.decodeRows_eq_ok_iff (s : IndexScan) {entries : List Entry}
    {rows : List Row} :
    s.decodeRows entries = ⟨rows, .ok ()⟩ ↔
      List.Forall₂ (fun e row => IndexScanCursor.rowOf s e.1 = .ok row) entries rows := by
  induction entries generalizing rows with
  | nil => simp [decodeRows, eq_comm]
  | cons e entries ih =>
      have hstep : s.decodeRows (e :: entries) =
          Listing.next (IndexScanCursor.rowOf s e.1) (s.decodeRows entries) := by
        rw [decodeRows]
        cases IndexScanCursor.rowOf s e.1 with
        | error err => rfl
        | ok row => rfl
      rw [hstep, Listing.next_eq_ok_iff, List.forall₂_cons_left_iff]
      simp only [ih]

/-- The predicate is exactly true of a row. -/
def Expr.isTrueOn (e : Expr) (env : Env) (row : Row) : Bool :=
  match e.eval (some row) env with
  | .ok (.bool true) => true
  | _ => false

/-- The row itself, if the predicate is exactly true of it. -/
def Expr.keep (e : Expr) (env : Env) (row : Row) : Except QueryError (Option Row) := do
  let v ← e.eval (some row) env
  .ok (if v = .bool true then some row else none)

/-- A filtered listing ends properly if its input does and the predicate has a value on every
row. -/
theorem Listing.pass_keep_eq_ok_iff {predicate : Expr} {env : Env} {ins outs : List Row}
    {fate : Except QueryError Unit} :
    pass (predicate.keep env) ins fate = ⟨outs, .ok ()⟩ ↔
      fate = .ok () ∧ (∀ row ∈ ins, ∃ v, predicate.eval (some row) env = .ok v) ∧
        outs = ins.filter (predicate.isTrueOn env) := by
  induction ins generalizing outs with
  | nil => simp [pass, and_comm, eq_comm]
  | cons row ins ih =>
      cases hv : predicate.eval (some row) env with
      | error e => simp [pass, Expr.keep, bind, Except.bind, hv]
      | ok v =>
          by_cases htrue : v = .bool true
          · have hkept : predicate.isTrueOn env row = true := by simp [Expr.isTrueOn, hv, htrue]
            have hcons : pass (predicate.keep env) (row :: ins) fate =
                next (.ok row) (pass (predicate.keep env) ins fate) := by
              simp [pass, Expr.keep, bind, Except.bind, hv, htrue, next]
            rw [hcons, next_eq_ok_iff, List.filter_cons_of_pos hkept, List.forall_mem_cons]
            constructor
            · rintro ⟨out, more, hout, hmore, rfl⟩
              obtain ⟨hfate, hall, rfl⟩ := ih.mp hmore
              exact ⟨hfate, ⟨⟨v, hv⟩, hall⟩, by rw [Except.ok.inj hout]⟩
            · rintro ⟨hfate, ⟨-, hall⟩, rfl⟩
              exact ⟨row, _, rfl, ih.mpr ⟨hfate, hall, rfl⟩, rfl⟩
          · have hdropped : predicate.isTrueOn env row = false := by
              rw [Expr.isTrueOn, hv]
              split
              · rename_i h
                exact absurd (Except.ok.inj h) htrue
              · rfl
            have hskip : pass (predicate.keep env) (row :: ins) fate =
                pass (predicate.keep env) ins fate := by
              simp [pass, Expr.keep, bind, Except.bind, hv, htrue]
            rw [hskip, ih, List.filter_cons_of_neg (by simp [hdropped]), List.forall_mem_cons]
            exact and_congr_right fun _ => and_congr_left fun _ =>
              (and_iff_right ⟨v, hv⟩).symm

namespace Grouping

/-- The runs of rows with the same key. -/
def groups (g : Grouping) (rows : List Row) : List (List Row) :=
  rows.splitBy fun a b => sameKey (g.key a) (g.key b)

/-- Gives rows to the slots of a group. -/
def fold (g : Grouping) : List Slot → List Row → Except QueryError (List Slot)
  | slots, [] => .ok slots
  | slots, row :: rows =>
      match feed row g.calls slots with
      | (.error e, _) => .error e
      | (.ok (), slots) => g.fold slots rows

/-- The key of a group. -/
def keyOf (g : Grouping) : List Row → List Value
  | [] => []
  | row :: _ => g.key row

/-- The row of a group. -/
def summary (g : Grouping) (group : List Row) : Except QueryError Row := do
  let slots ← g.fold g.freshSlots group
  g.rowOf (g.keyOf group) slots

/-- The rows of groups.  The row of a group comes after the next group has taken its first
row, and the last one after the input has ended. -/
def listing (g : Grouping) (fate : Except QueryError Unit) : List (List Row) → Listing
  | [] => ⟨[], fate⟩
  | [group] =>
      Listing.next (do
        let slots ← g.fold g.freshSlots group
        fate
        g.rowOf (g.keyOf group) slots) ⟨[], .ok ()⟩
  | group :: following :: rest =>
      Listing.next (do
        let row ← g.summary group
        let _ ← g.fold g.freshSlots (following.take 1)
        .ok row) (g.listing fate (following :: rest))

/-- The first rows of a group are taken whenever all of its rows are. -/
theorem fold_take_eq_ok {g : Grouping} {slots slots' : List Slot} {group : List Row}
    (h : g.fold slots group = .ok slots') (n : Nat) :
    ∃ taken, g.fold slots (group.take n) = .ok taken := by
  induction n generalizing slots group with
  | zero => exact ⟨slots, rfl⟩
  | succ n ih =>
      cases group with
      | nil => exact ⟨slots, rfl⟩
      | cons row rows =>
          rw [fold] at h
          rw [List.take_succ_cons, fold]
          split at h
          · cases h
          · exact ih h

/-- Groups have a listing that ends properly if the input does and every group has a row. -/
theorem listing_eq_ok_iff {g : Grouping} {fate : Except QueryError Unit}
    {groups : List (List Row)} {outs : List Row} :
    g.listing fate groups = ⟨outs, .ok ()⟩ ↔
      fate = .ok () ∧ List.Forall₂ (fun group out => g.summary group = .ok out) groups outs := by
  match groups with
  | [] => simp [listing, and_comm, eq_comm]
  | [group] =>
      rw [listing, Listing.next_eq_ok_iff, List.forall₂_cons_left_iff]
      constructor
      · rintro ⟨out, more, hout, hmore, rfl⟩
        obtain ⟨slots, hslots, hout⟩ := Except.bind_eq_ok_iff.mp hout
        obtain ⟨⟨⟩, hfate, hrow⟩ := Except.bind_eq_ok_iff.mp hout
        have hsummary : g.summary group = .ok out :=
          Except.bind_eq_ok_iff.mpr ⟨slots, hslots, hrow⟩
        obtain ⟨rfl, -⟩ := Listing.mk.inj hmore
        exact ⟨hfate, out, [], hsummary, .nil, rfl⟩
      · rintro ⟨hfate, out, more, hout, hall, rfl⟩
        obtain ⟨slots, hslots, hrow⟩ := Except.bind_eq_ok_iff.mp hout
        obtain rfl := List.forall₂_nil_left_iff.mp hall
        exact ⟨out, [], Except.bind_eq_ok_iff.mpr ⟨slots, hslots,
          Except.bind_eq_ok_iff.mpr ⟨(), hfate, hrow⟩⟩, rfl, rfl⟩
  | group :: following :: rest =>
      rw [listing, Listing.next_eq_ok_iff, List.forall₂_cons_left_iff]
      constructor
      · rintro ⟨out, more, hout, hmore, rfl⟩
        obtain ⟨hfate, hall⟩ := listing_eq_ok_iff.mp hmore
        obtain ⟨out', hsummary, htaken⟩ := Except.bind_eq_ok_iff.mp hout
        obtain ⟨slots, -, hsame⟩ := Except.bind_eq_ok_iff.mp htaken
        obtain rfl := Except.ok.inj hsame
        exact ⟨hfate, out', more, hsummary, hall, rfl⟩
      · rintro ⟨hfate, out, more, hsummary, hall, rfl⟩
        -- the next group takes its first row, since it takes all of them
        obtain ⟨next, outs, hnext, -, -⟩ := List.forall₂_cons_left_iff.mp hall
        obtain ⟨slots, hslots, -⟩ := Except.bind_eq_ok_iff.mp hnext
        obtain ⟨taken, htaken⟩ := fold_take_eq_ok hslots 1
        exact ⟨out, more, Except.bind_eq_ok_iff.mpr ⟨out, hsummary,
          Except.bind_eq_ok_iff.mpr ⟨taken, htaken, rfl⟩⟩,
          listing_eq_ok_iff.mpr ⟨hfate, hall⟩, rfl⟩

end Grouping

namespace Plan

/-- The rows of a plan and what comes after them; an error outside of the listing is one that
comes before there is a first row. -/
def listing (store : Store) (allowed : Nat) (env : Env) : Plan → Except QueryError Listing
  | values _ rows => .ok ⟨rows, .ok ()⟩
  | scan s => s.listing store env
  | select input predicate =>
      (input.listing store allowed env).map fun l =>
        Listing.pass (predicate.keep env) l.rows l.fate
  | project input p =>
      (input.listing store allowed env).map fun l =>
        Listing.pass (fun row => (p.apply env row).map some) l.rows l.fate
  | aggregate input g =>
      (input.listing store allowed env).map fun l => g.listing l.fate (g.groups l.rows)
  | sort input s => do
      s.checkLimit allowed
      let l ← input.listing store allowed env
      let rows ← l.outcome
      .ok ⟨s.firstRows rows, .ok ()⟩
  | map .. => .error .stalled

/-- The rows of a plan in which nothing fails. -/
inductive Denotes (store : Store) (allowed : Nat) (env : Env) : Plan → List Row → Prop where
  | values {type : RowType} {rows : List Row} : Denotes store allowed env (values type rows) rows
  | scan {s : IndexScan} {found : Option KeyRange} {rows : List Row}
      (hrange : s.keyRange env = .ok found)
      (hrows : List.Forall₂ (fun e row => IndexScanCursor.rowOf s e.1 = .ok row)
        (s.entries store found) rows) :
      Denotes store allowed env (scan s) rows
  | select {input : Plan} {predicate : Expr} {ins : List Row}
      (hinput : Denotes store allowed env input ins)
      (heval : ∀ row ∈ ins, ∃ v, predicate.eval (some row) env = .ok v) :
      Denotes store allowed env (select input predicate)
        (ins.filter (predicate.isTrueOn env))
  | project {input : Plan} {p : Projection} {ins outs : List Row}
      (hinput : Denotes store allowed env input ins)
      (hrows : List.Forall₂ (fun row out => p.apply env row = .ok out) ins outs) :
      Denotes store allowed env (project input p) outs
  | aggregate {input : Plan} {g : Grouping} {ins outs : List Row}
      (hinput : Denotes store allowed env input ins)
      (hrows : List.Forall₂ (fun group out => g.summary group = .ok out) (g.groups ins) outs) :
      Denotes store allowed env (aggregate input g) outs
  | sort {input : Plan} {s : Sorting} {ins : List Row}
      (hlimit : s.checkLimit allowed = .ok ()) (hinput : Denotes store allowed env input ins) :
      Denotes store allowed env (sort input s) (s.firstRows ins)

theorem listing_eq_ok_iff_denotes {store : Store} {allowed : Nat} {env : Env} {p : Plan}
    {rows : List Row} :
    p.listing store allowed env = .ok ⟨rows, .ok ()⟩ ↔ Denotes store allowed env p rows := by
  induction p generalizing rows with
  | values type rows' =>
      constructor
      · intro h
        obtain ⟨rfl, -⟩ := Listing.mk.inj (Except.ok.inj h)
        exact .values
      · rintro ⟨⟩
        rfl
  | scan s =>
      constructor
      · intro h
        obtain ⟨found, hrange, hrows⟩ := Except.map_eq_ok_iff.mp h
        exact .scan hrange (s.decodeRows_eq_ok_iff.mp hrows)
      · intro h
        cases h with
        | scan hrange hrows =>
            exact Except.map_eq_ok_iff.mpr ⟨_, hrange, s.decodeRows_eq_ok_iff.mpr hrows⟩
  | select input predicate ih =>
      constructor
      · intro h
        obtain ⟨⟨ins, fate⟩, hinput, hpass⟩ := Except.map_eq_ok_iff.mp h
        obtain ⟨rfl, heval, rfl⟩ := Listing.pass_keep_eq_ok_iff.mp hpass
        exact .select (ih.mp hinput) heval
      · intro h
        cases h with
        | select hinput heval =>
            rw [listing, ih.mpr hinput]
            exact congrArg Except.ok (Listing.pass_keep_eq_ok_iff.mpr ⟨rfl, heval, rfl⟩)
  | project input p ih =>
      constructor
      · intro h
        obtain ⟨⟨ins, fate⟩, hinput, hpass⟩ := Except.map_eq_ok_iff.mp h
        obtain ⟨rfl, hrows⟩ := Listing.pass_map_some_eq_ok_iff.mp hpass
        exact .project (ih.mp hinput) hrows
      · intro h
        cases h with
        | project hinput hrows =>
            rw [listing, ih.mpr hinput]
            exact congrArg Except.ok (Listing.pass_map_some_eq_ok_iff.mpr ⟨rfl, hrows⟩)
  | aggregate input g ih =>
      constructor
      · intro h
        obtain ⟨⟨ins, fate⟩, hinput, hgroups⟩ := Except.map_eq_ok_iff.mp h
        obtain ⟨rfl, hrows⟩ := Grouping.listing_eq_ok_iff.mp hgroups
        exact .aggregate (ih.mp hinput) hrows
      · intro h
        cases h with
        | aggregate hinput hrows =>
            rw [listing, ih.mpr hinput]
            exact congrArg Except.ok (Grouping.listing_eq_ok_iff.mpr ⟨rfl, hrows⟩)
  | sort input s ih =>
      constructor
      · intro h
        obtain ⟨⟨⟩, hlimit, h⟩ := Except.bind_eq_ok_iff.mp h
        obtain ⟨⟨ins, fate⟩, hinput, h⟩ := Except.bind_eq_ok_iff.mp h
        obtain ⟨ins', houtcome, h⟩ := Except.bind_eq_ok_iff.mp h
        obtain ⟨rfl, -⟩ := Listing.mk.inj (Except.ok.inj h)
        cases fate with
        | error e => cases houtcome
        | ok u =>
            obtain rfl := Except.ok.inj houtcome
            exact .sort hlimit (ih.mp hinput)
      · intro h
        cases h with
        | sort hlimit hinput =>
            rw [listing, hlimit, ih.mpr hinput]
            rfl
  | map input m ih =>
      constructor
      · intro h
        cases h
      · intro h
        cases h

end Plan
end OrderedQuery
