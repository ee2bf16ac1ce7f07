import OrderedQuery.Proofs.Index.RoundTrip
import OrderedQuery.Proofs.Plan.KeyRanges
import OrderedQuery.Proofs.Plan.SortedGroups
import OrderedQuery.Proofs.Plan.Soundness
import OrderedQuery.Proofs.Store.Scan

/-!
# Plans over a piece

A plan that scans the piece bound at a position returns rows whose first value lies in the piece.
Bound to a smaller piece, it returns those of them that lie in the smaller one: scans because the
bounds of the piece become a range of keys, selections because they do not read the position, and
an aggregate because the rows of a group have the same first value and stand next to each other.
-/

namespace OrderedQuery

/-- The first value is an integer in the piece from `a` up to `b`, which does not hold `b`. -/
def Partitioning.leads (a b : Int64) : List Value → Bool
  | .int k :: _ => decide (a ≤ k) && decide (k < b)
  | _ => false

open Partitioning (leads pieceRow)

theorem Partitioning.leads_mono {a b a' b' : Int64} (ha : a ≤ a') (hb : b' ≤ b)
    {values : List Value} (h : leads a' b' values) : leads a b values := by
  match values with
  | .int k :: _ =>
      rw [leads, Bool.and_eq_true, decide_eq_true_eq, decide_eq_true_eq] at h ⊢
      exact ⟨Int64.le_trans ha h.1, Int64.lt_of_lt_of_le h.2 hb⟩

theorem Partitioning.exists_of_leads {a b : Int64} {values : List Value} (h : leads a b values) :
    ∃ k rest, values = .int k :: rest := by
  match values with
  | .int k :: rest => exact ⟨k, rest, rfl⟩

/-- The bounds that a piece gives: its first field, and its second one, which is excluded. -/
def ScanRange.ofPiece (position : Nat) : ScanRange :=
  ⟨some ⟨[.boundField position 0 .int], true⟩, some ⟨[.boundField position 1 .int], false⟩⟩

theorem Row.values_of_ofValues {type : RowType} {values : List Value} {row : Row}
    (h : ofValues type values = .ok row) : row.values = values := by
  rw [ofValues] at h
  split at h
  · rw [← Except.ok.inj h]
  · cases h

/-- The entries in a range are chosen from those in the range of all keys. -/
theorem Store.visible_eq_filter_all (store : Store) (table : String) (range : KeyRange)
    (direction : Direction) :
    store.visible table range direction =
      (store.visible table .all direction).filter fun e => range.contains e.1 := by
  have hall : ∀ e : Entry, KeyRange.all.contains e.1 = true := fun _ => rfl
  rw [visible_eq_filter, visible_eq_filter, List.filter_eq_self.mpr fun e _ => hall e]

/-! ## Scans -/

theorem not_orderAbove_of_orderBelow {o : Ordering} (h : OrderBelow o false) :
    ¬OrderAbove o true := by
  cases o <;> simp [OrderAbove, OrderBelow] at h ⊢

namespace Index

variable {ix : Index}

/-- Coordinates are two values, so one value stands for itself. -/
theorem collapse_of_length_le_one (hv : ix.Valid) {values : List Value}
    (h : values.length ≤ 1) : ix.collapse values = values := by
  cases hg : ix.spatial with
  | none => rw [collapse_of_none hg]
  | some g =>
      have hafter := after_eq hv hg
      exact collapse_of_lt hg (by omega)

theorem collapse_singleton (hv : ix.Valid) (v : Value) : ix.collapse [v] = [v] :=
  collapse_of_length_le_one hv (Nat.le_refl 1)

theorem compareBound_nil (hv : ix.Valid) (x : Value) : ix.compareBound [] [x] = .lt := by
  have hnil : ix.collapse [] = [] := collapse_of_length_le_one hv (Nat.zero_le 1)
  rw [compareBound, List.take_nil, hnil, collapse_singleton hv, List.compareLex_nil_cons]

/-- A bound of one value is compared with the first value of a row. -/
theorem compareBound_cons (hv : ix.Valid) (v : Value) (row : List Value) (x : Value) :
    ix.compareBound (v :: row) [x] = v.totalCompare x := by
  rw [compareBound, List.length_singleton, List.take_succ_cons, List.take_zero,
    collapse_singleton hv, collapse_singleton hv, List.compareLex_cons_cons,
    List.compareLex_nil_nil, Ordering.then_eq]

/-- A value of the type of the first column has a key, unless coordinates begin there. -/
theorem exists_encodeLeading_singleton (hv : ix.Valid) {c : Column} {columns : List Column}
    (hcolumns : ix.columns = c :: columns) {v : Value} (hconforms : v.conforms c.type)
    (hwhole : ∀ g, ix.spatial = some g → ¬(g.first < 1 ∧ 1 < g.after)) :
    ∃ key, ix.encodeLeading [v] = .ok key := by
  rw [exists_encodeLeading_iff hv]
  refine ⟨⟨?_, ?_⟩, ?_, ?_⟩
  · rw [hcolumns, List.length_singleton, List.length_cons]
    omega
  · intro g hg
    have hsplit := hwhole g hg
    rw [List.length_singleton]
    omega
  · rw [hcolumns, checkTypes, if_pos hconforms]
    cases columns <;> rfl
  · intro g hg hlong
    have hafter := after_eq hv hg
    rw [List.length_singleton] at hlong
    omega

/-- The rows between two integers are those whose first value is an integer between them. -/
theorem meets_iff_leads (hv : ix.Valid) (a b : Int64) (row : List Value) :
    ix.MeetsLow [.int a] true row ∧ ix.MeetsHigh [.int b] false row ↔ leads a b row := by
  unfold MeetsLow MeetsHigh
  cases row with
  | nil => simp [compareBound_nil hv, OrderAbove, leads]
  | cons v row =>
      rw [compareBound_cons hv, compareBound_cons hv]
      cases v with
      | int k =>
          have hlow : OrderAbove (Value.totalCompare (.int k) (.int a)) true ↔ a ≤ k := by
            rw [Int64.le_iff_toInt_le, Int.le_iff_lt_or_eq, ← Int.compare_eq_gt,
              eq_comm (a := a.toInt), ← Int.compare_eq_eq]
            simp [OrderAbove, Value.totalCompare]
          have hhigh : OrderBelow (Value.totalCompare (.int k) (.int b)) false ↔ k < b := by
            rw [Int64.lt_iff_toInt_lt, ← Int.compare_eq_lt]
            simp [OrderBelow, Value.totalCompare]
          rw [hlow, hhigh, leads, Bool.and_eq_true, decide_eq_true_eq, decide_eq_true_eq]
      | _ => exact iff_of_false (fun h => not_orderAbove_of_orderBelow h.2 h.1) Bool.false_ne_true

end Index

namespace IndexScan

variable {s : IndexScan} {env : Env} {position : Nat} {a b : Int64}

theorem evalAll_field (hbound : env.get? position = some (.row (pieceRow a b))) :
    evalAll env [.boundField position 0 .int] = .ok [.int a] ∧
      evalAll env [.boundField position 1 .int] = .ok [.int b] := by
  have hrow : env.row position = .ok (pieceRow a b) := by rw [Env.row, hbound]
  constructor <;> simp only [evalAll, Expr.eval, hrow] <;> rfl

/-- The rows in a piece are those whose first value lies in it. -/
theorem admits_ofPiece_iff (hv : s.index.Valid)
    (hrange : s.range = .ofPiece position)
    (hbound : env.get? position = some (.row (pieceRow a b))) (row : List Value) :
    s.Admits env row ↔ leads a b row := by
  obtain ⟨hlow, hhigh⟩ := evalAll_field hbound
  rw [admits_iff, hrange, ScanRange.ofPiece, demands_some_iff hlow, demands_some_iff hhigh]
  exact Index.meets_iff_leads hv a b row

/-- A first column of integers has a key for every integer. -/
theorem encodes_ofPiece (hv : s.index.Valid) (hspatial : s.index.spatial = none) {c : Column}
    {columns : List Column} (hcolumns : s.index.columns = c :: columns) (hint : c.type = .int)
    (hrange : s.range = .ofPiece position)
    (hbound : env.get? position = some (.row (pieceRow a b))) : s.Encodes env := by
  obtain ⟨hlow, hhigh⟩ := evalAll_field hbound
  have hkey (x : Int64) : ∃ key, s.index.encodeLeading [.int x] = .ok key := by
    have hconforms : (Value.int x).conforms c.type := by rw [hint]; rfl
    exact Index.exists_encodeLeading_singleton hv hcolumns hconforms fun g hg => by
      rw [hspatial] at hg
      cases hg
  intro bound hmem
  rw [hrange, ScanRange.bounds, ScanRange.ofPiece] at hmem
  rcases List.mem_pair.mp hmem with rfl | rfl
  · obtain ⟨key, hkey⟩ := hkey a
    exact ⟨_, key, hlow, hkey⟩
  · obtain ⟨key, hkey⟩ := hkey b
    exact ⟨_, key, hhigh, hkey⟩

theorem values_of_rowOf {key : Bytes} {row : Row} (h : IndexScanCursor.rowOf s key = .ok row) :
    row.values = s.valuesAt key := by
  obtain ⟨values, hvalues, hrow⟩ := Except.bind_eq_ok_iff.mp h
  have hdecoded : s.index.decodeRow key = .ok values := by
    cases hdecode : s.index.decodeRow key with
    | error e => rw [hdecode] at hvalues; cases hvalues
    | ok values' =>
        rw [hdecode] at hvalues
        exact congrArg Except.ok (Except.ok.inj hvalues)
  rw [valuesAt, hdecoded, Row.values_of_ofValues hrow]
  rfl

theorem leads_map_canonical (row : List Value) :
    leads a b (row.map Value.canonical) = leads a b row := by
  match row with
  | [] => rfl
  | v :: row => cases v <;> rfl

/-- All rows of an index, in the order of a scan. -/
def allRows (s : IndexScan) (store : Store) : List Row :=
  (s.decodeRows (store.visible s.index.storageTable .all s.direction)).rows

section

variable {store : Store} {ordering : List Bool} {ix : Index} {range : ScanRange}

theorem encodeRow_of_mem_visible (hkeys : ix.KeysOnly store) (direction : Direction) :
    ∀ e ∈ store.visible ix.storageTable .all direction, ∃ row, ix.encodeRow row = .ok e.1 :=
  fun e he => hkeys e.1 e.2 (Store.mem_visible_iff.mp he).1

theorem exists_values_of_mem_allRows (hv : ix.Valid) (hbuild : build ix range ordering = .ok s)
    (hkeys : ix.KeysOnly store) {row : Row} (hrow : row ∈ s.allRows store) :
    ∃ values key, ix.encodeRow values = .ok key ∧ row.values = values.map Value.canonical := by
  obtain ⟨rfl, -, htype, -, -⟩ := build_eq_ok hbuild
  have hencoded := encodeRow_of_mem_visible hkeys s.direction
  obtain ⟨-, hvalues⟩ := decodeRows_of_encodeRow hv htype hencoded
  have hmem := List.mem_map_of_mem (f := Row.values) hrow
  rw [allRows, hvalues] at hmem
  obtain ⟨e, he, hvalue⟩ := List.mem_map.mp hmem
  obtain ⟨values, hkey⟩ := hencoded e he
  exact ⟨values, e.1, hkey, by rw [← hvalue, valuesAt_of_encodeRow hv hkey]⟩

/-- The rows of an index that holds keys only are whole rows, in order. -/
theorem arranges_allRows (hv : ix.Valid) (hbuild : build ix range ordering = .ok s)
    (hspatial : ix.spatial = none) (hkeys : ix.KeysOnly store) : s.Arranges (s.allRows store) := by
  have hwhole (row : Row) (hrow : row ∈ s.allRows store) :=
    exists_values_of_mem_allRows hv hbuild hkeys hrow
  obtain ⟨rfl, -, htype, -, -⟩ := build_eq_ok hbuild
  have hencoded := encodeRow_of_mem_visible hkeys s.direction
  obtain ⟨-, hvalues⟩ := decodeRows_of_encodeRow hv htype hencoded
  refine ⟨hspatial, ?_, ?_⟩
  · intro row hrow
    obtain ⟨values, key, hkey, hvalue⟩ := hwhole row hrow
    rw [hvalue, List.length_map]
    exact (Index.encodeRow_eq_ok hv hkey).1
  · rw [← List.pairwise_map (f := Row.values) (R := s.Precedes), allRows, hvalues,
      List.pairwise_map]
    refine (Store.pairwise_visible _ _ _ _).imp_of_mem ?_
    intro e e' he he' hbefore
    obtain ⟨row, hrow⟩ := hencoded e he
    obtain ⟨row', hrow'⟩ := hencoded e' he'
    exact precedes_valuesAt hv hrow hrow' hbefore

theorem entries_eq_filter (s : IndexScan) (store : Store) (found : Option KeyRange) :
    s.entries store found =
      (store.visible s.index.storageTable .all s.direction).filter fun e =>
        found.any fun range => range.contains e.1 := by
  cases found with
  | none => exact (List.filter_eq_nil_iff.mpr fun e _ => Bool.false_ne_true).symm
  | some range =>
      rw [IndexScan.entries, Store.visible_eq_filter_all]
      rfl

/-- A scan of an index that holds keys only returns those of all rows that satisfy its bounds. -/
theorem denotes_filter (hv : ix.Valid) (hbuild : build ix range ordering = .ok s)
    (hkeys : ix.KeysOnly store) (hencodes : s.Encodes env) {admits : Row → Bool}
    (hadmits : ∀ values key row, ix.encodeRow values = .ok key →
      row.values = values.map Value.canonical → (s.Admits env values ↔ admits row))
    (allowed : Nat) :
    (Plan.scan s).Denotes store allowed env ((s.allRows store).filter admits) := by
  obtain ⟨found, hfound, hcontains⟩ := keyRange_contains_iff hv hbuild hencodes
  obtain ⟨rfl, -, htype, -, -⟩ := build_eq_ok hbuild
  have hencoded := encodeRow_of_mem_visible hkeys s.direction
  obtain ⟨hfate, -⟩ := decodeRows_of_encodeRow hv htype hencoded
  have hdecoded := s.decodeRows_eq_ok_iff.mp
    (congrArg (Listing.mk (s.allRows store)) hfate)
  have hpaired := (List.forall₂_and_left _ _).mpr ⟨hencoded, hdecoded⟩
  refine .scan hfound ?_
  rw [entries_eq_filter]
  refine (List.rel_filter ?_ hpaired).imp fun e row h => h.2
  rintro e row ⟨⟨values, hkey⟩, hrow⟩
  have hvalues : row.values = values.map Value.canonical := by
    rw [values_of_rowOf hrow, valuesAt_of_encodeRow hv hkey]
  have hinside := (hcontains values e.1 hkey).trans (hadmits values e.1 row hkey hvalues)
  rwa [← Option.any_eq_true] at hinside

/-- Bound to a piece, a scan returns the rows in the piece. -/
theorem denotes_ofPiece (hv : ix.Valid) (hbuild : build ix (.ofPiece position) ordering = .ok s)
    (hspatial : ix.spatial = none) {c : Column} {columns : List Column}
    (hcolumns : ix.columns = c :: columns) (hint : c.type = .int) (hkeys : ix.KeysOnly store)
    (hbound : env.get? position = some (.row (pieceRow a b))) (allowed : Nat) :
    (Plan.scan s).Denotes store allowed env
      ((s.allRows store).filter fun row => leads a b row.values) := by
  obtain ⟨rfl, hrange, -⟩ := build_eq_ok hbuild
  refine denotes_filter hv hbuild hkeys
    (encodes_ofPiece hv hspatial hcolumns hint hrange hbound) ?_ allowed
  intro values key row hkey hvalues
  rw [admits_ofPiece_iff hv hrange hbound, hvalues, leads_map_canonical]

end

end IndexScan

/-! ## Plans over a piece -/

namespace Plan

variable {registry : Registry} {store : Store} {allowed : Nat} {env : Env} {position : Nat}
  {low high : Int64} {p : Plan} {rows rows' : List Row}

theorem Denotes.unique (h : p.Denotes store allowed env rows)
    (h' : p.Denotes store allowed env rows') : rows = rows' := by
  rw [← listing_eq_ok_iff_denotes] at h h'
  obtain ⟨hrows, -⟩ := Listing.mk.inj (Except.ok.inj (h.symm.trans h'))
  exact hrows

/-- The environment in which a piece is bound. -/
abbrev pieceEnv (env : Env) (position : Nat) (a b : Int64) : Env :=
  env.fork.set position (.row (pieceRow a b))

theorem get?_pieceEnv (env : Env) (position : Nat) (a b : Int64) :
    (pieceEnv env position a b).get? position = some (.row (pieceRow a b)) := by
  rw [Env.get?_set_fork, if_pos rfl]

theorem pieceEnv_agreeOn (env : Env) (position : Nat) (a b a' b' : Int64) :
    (pieceEnv env position a b).AgreeOn (· ≠ position) (pieceEnv env position a' b') := by
  intro other hother
  rw [Env.get?_set_fork, Env.get?_set_fork, if_neg hother, if_neg hother]

/-- An index without coordinates whose first column holds integers is scanned within the piece
that is bound at a position, and rows are selected by predicates that do not read the position. -/
inductive Slices (position : Nat) : Plan → Prop where
  | scan {d : Index.Draft} {ix : Index} {c : Column} {columns : List Column}
      {ordering : List Bool} {p : Plan} (hdraft : d.build = .ok ix)
      (htable : Layout.ZeroFree ix.table) (hname : Layout.ZeroFree ix.name)
      (hspatial : ix.spatial = none) (hcolumns : ix.columns = c :: columns) (hint : c.type = .int)
      (h : ofScan ix (.ofPiece position) ordering = .ok p) : Slices position p
  | select {input : Plan} {predicate : Expr} {p : Plan} (hinput : Slices position input)
      (hreads : position ∉ predicate.reads) (h : ofSelect input predicate = .ok p) :
      Slices position p

theorem Slices.built (hp : Slices position p) : Built registry p := by
  induction hp with
  | scan hdraft htable hname hspatial hcolumns hint h => exact .scan htable hname h
  | select hinput hreads h ih => exact .select ih h

/-- The rows of a plan in a piece lie in the piece, and in every smaller piece the plan has those
of them that lie there. -/
structure Restricts (store : Store) (allowed : Nat) (env : Env) (position : Nat) (low high : Int64)
    (p : Plan) (rows : List Row) : Prop where
  leads : ∀ row ∈ rows, leads low high row.values
  restrict : ∀ a b, low ≤ a → b ≤ high → p.Denotes store allowed (pieceEnv env position a b)
    (rows.filter fun row => Partitioning.leads a b row.values)

theorem Slices.restricts (hp : Slices position p) (hkeys : p.KeysOnly store)
    (h : p.Denotes store allowed (pieceEnv env position low high) rows) :
    Restricts store allowed env position low high p rows ∧ ∃ s : IndexScan, s.Arranges rows := by
  induction hp generalizing rows with
  | scan hdraft htable hname hspatial hcolumns hint hbuild =>
      obtain ⟨s, hs, rfl⟩ := ofScan_eq_ok hbuild
      obtain ⟨rfl, -⟩ := IndexScan.build_eq_ok hs
      have hv := Index.valid_of_build hdraft
      have hall := IndexScan.arranges_allRows hv hs hspatial hkeys
      have hpieces (a b : Int64) := IndexScan.denotes_ofPiece hv hs hspatial hcolumns hint hkeys
        (get?_pieceEnv env position a b) allowed
      obtain rfl := h.unique (hpieces low high)
      refine ⟨⟨fun row hrow => (List.mem_filter.mp hrow).2, ?_⟩, s, hall.filter _⟩
      intro a b ha hb
      have hsmaller : (fun row : Row => leads a b row.values && leads low high row.values) =
          fun row => leads a b row.values := by
        funext row
        rw [Bool.and_eq_left_iff_imp]
        exact fun hrow => Partitioning.leads_mono ha hb hrow
      rw [List.filter_filter, hsmaller]
      exact hpieces a b
  | @select input predicate p hinput hreads hbuild ih =>
      obtain rfl := ofSelect_eq_ok hbuild
      cases h with
      | @select _ _ ins hins heval =>
          obtain ⟨hrestricts, s, hs⟩ := ih hkeys hins
          refine ⟨⟨fun row hrow => hrestricts.leads row (List.mem_of_mem_filter hrow), ?_⟩, s,
            hs.filter _⟩
          intro a b ha hb
          have heval_eq (row : Row) :
              predicate.eval (some row) (pieceEnv env position a b) =
                predicate.eval (some row) (pieceEnv env position low high) :=
            predicate.eval_congr _ (pieceEnv_agreeOn env position low high a b) fun other hother =>
              fun heq => hreads (heq ▸ hother)
          have htrue : predicate.isTrueOn (pieceEnv env position a b) =
              predicate.isTrueOn (pieceEnv env position low high) := by
            funext row
            rw [Expr.isTrueOn, heval_eq, Expr.isTrueOn]
          rw [List.filter_comm, ← htrue]
          refine .select (hrestricts.restrict a b ha hb) ?_
          intro row hrow
          rw [heval_eq]
          exact heval row (List.mem_of_mem_filter hrow)

theorem Slices.ne_aggregate {q : Plan} {g : Grouping} (hp : Slices position p) :
    p ≠ aggregate q g := by
  cases hp with
  | scan hdraft htable hname hspatial hcolumns hint h =>
      obtain ⟨s, -, rfl⟩ := ofScan_eq_ok h
      exact nofun
  | select hinput hreads h =>
      obtain rfl := ofSelect_eq_ok h
      exact nofun

/-- Such a plan, or groups of its rows by one column or more. -/
inductive Tileable (registry : Registry) (position : Nat) : Plan → Prop where
  | slice {p : Plan} (h : Slices position p) : Tileable registry position p
  | aggregate {input : Plan} {fields : Nat} {calls : List (String × Option Nat)} {p : Plan}
      (hinput : Slices position input) (hfields : 1 ≤ fields)
      (h : ofAggregate registry input fields calls = .ok p) : Tileable registry position p

theorem Tileable.built (hp : Tileable registry position p) : Built registry p := by
  cases hp with
  | slice h => exact h.built
  | aggregate hinput hfields h => exact .aggregate hinput.built h

end Plan

theorem exists_of_mem_forall₂ {α β : Type} {R : α → β → Prop} {l : List α} {l' : List β}
    (h : List.Forall₂ R l l') {b : β} (hb : b ∈ l') : ∃ a ∈ l, R a b := by
  induction h with
  | nil => cases hb
  | cons hR h ih =>
      rcases List.mem_cons.mp hb with rfl | hb
      · exact ⟨_, List.mem_cons_self, hR⟩
      · obtain ⟨a, ha, hR'⟩ := ih hb
        exact ⟨a, List.mem_cons_of_mem _ ha, hR'⟩

namespace Grouping

variable {g : Grouping} {low high a b : Int64} {row row' out : Row} {group : List Row}

theorem build_eq_ok {registry : Registry} {input : RowType} {fields : Nat}
    {calls : List (String × Option Nat)} (h : build registry input fields calls = .ok g) :
    g.fields = fields ∧ fields ≤ input.arity := by
  rw [build] at h
  split at h
  · cases h
  · rename_i hfields
    obtain ⟨resolved, -, h⟩ := Except.bind_eq_ok_iff.mp h
    obtain rfl := Except.ok.inj h
    exact ⟨rfl, Nat.not_lt.mp hfields⟩

/-- The row of a group begins with the key of the group. -/
theorem values_of_summary (h : g.summary group = .ok out) :
    ∃ results, out.values = g.keyOf group ++ results := by
  obtain ⟨slots, -, hrow⟩ := Except.bind_eq_ok_iff.mp h
  exact ⟨_, Row.values_of_ofValues hrow⟩

/-- Of two rows with one key, both or neither lie in a piece. -/
theorem leads_eq_of_sameKey (hfields : 1 ≤ g.fields) (h : leads low high row.values)
    (h' : leads low high row'.values) (hsame : sameKey (g.key row) (g.key row')) (a b : Int64) :
    leads a b row.values = leads a b row'.values := by
  obtain ⟨n, hn⟩ := Nat.exists_eq_succ_of_ne_zero (Nat.one_le_iff_ne_zero.mp hfields)
  obtain ⟨k, rest, hrow⟩ := Partitioning.exists_of_leads h
  obtain ⟨k', rest', hrow'⟩ := Partitioning.exists_of_leads h'
  rw [key, key, hn, hrow, hrow', List.take_succ_cons, List.take_succ_cons, sameKey_iff] at hsame
  have hfirst := (List.cons.inj hsame).1
  have hcompare : (Value.int k).totalCompare (.int k') = .eq := by
    rw [Value.totalCompare_eq_compare_ascending, hfirst]
    exact Std.ReflOrd.compare_self
  have hequal : k = k' := Int64.toInt_inj.mp (Int.compare_eq_eq.mp hcompare)
  rw [hrow, hrow', hequal]
  rfl

/-- The row of a group lies in the pieces that its rows lie in. -/
theorem leads_summary (hfields : 1 ≤ g.fields) {rows : List Row} (hgroup : group ∈ g.groups rows)
    (hleads : ∀ row ∈ group, leads low high row.values) (h : g.summary group = .ok out)
    (hrow : row ∈ group) (a b : Int64) : leads a b out.values = leads a b row.values := by
  obtain ⟨results, hout⟩ := values_of_summary h
  have hsame := sameKey_keyOf hgroup hrow
  cases group with
  | nil => cases hrow
  | cons first group =>
      have hfirst := hleads first List.mem_cons_self
      obtain ⟨n, hn⟩ := Nat.exists_eq_succ_of_ne_zero (Nat.one_le_iff_ne_zero.mp hfields)
      obtain ⟨k, rest, hvalues⟩ := Partitioning.exists_of_leads hfirst
      rw [← leads_eq_of_sameKey hfields hfirst (hleads row hrow) hsame, hout, keyOf, key, hn,
        hvalues, List.take_succ_cons]
      rfl

end Grouping

namespace Plan

variable {registry : Registry} {store : Store} {allowed : Nat} {env : Env} {position : Nat}
  {low high : Int64} {p : Plan} {rows rows' : List Row}

theorem Tileable.restricts (hp : Tileable registry position p) (hkeys : p.KeysOnly store)
    (h : p.Denotes store allowed (pieceEnv env position low high) rows) :
    Restricts store allowed env position low high p rows := by
  cases hp with
  | slice hp => exact (hp.restricts hkeys h).1
  | aggregate hinput hfields hbuild =>
      obtain ⟨g, hg, hp⟩ := Except.bind_eq_ok_iff.mp hbuild
      obtain rfl := (Except.ok.inj hp).symm
      obtain ⟨rfl, -⟩ := Grouping.build_eq_ok hg
      cases h with
      | @aggregate _ _ ins _ hins hrows =>
          obtain ⟨hrestricts, s, hs⟩ := hinput.restricts hkeys hins
          have hgathers := hs.gathers g
          have hwithin : ∀ group ∈ g.groups ins, group ∈ g.groups ins ∧
              ∀ row ∈ group, leads low high row.values :=
            fun group hgroup => ⟨hgroup, fun row hrow =>
              hrestricts.leads row (Grouping.mem_of_mem_groups hgroup hrow)⟩
          have hgroups := (List.forall₂_and_left _ _).mpr ⟨hwithin, hrows⟩
          constructor
          · intro out hout
            obtain ⟨group, -, ⟨hgroup, hleads⟩, hsummary⟩ := exists_of_mem_forall₂ hgroups hout
            obtain ⟨row, hrow⟩ := List.exists_mem_of_ne_nil _ (List.ne_nil_of_mem_splitBy hgroup)
            rw [Grouping.leads_summary hfields hgroup hleads hsummary hrow]
            exact hleads row hrow
          · intro a b ha hb
            refine .aggregate (hrestricts.restrict a b ha hb) ?_
            rw [hgathers.groups_filter]
            · refine (List.rel_filter ?_ hgroups).imp fun group out h => h.2
              rintro group out ⟨⟨hgroup, hleads⟩, hsummary⟩
              have hsame (row : Row) (hrow : row ∈ group) :
                  leads a b out.values = leads a b row.values :=
                Grouping.leads_summary hfields hgroup hleads hsummary hrow a b
              refine List.any_eq_true.trans ⟨?_, ?_⟩
              · rintro ⟨row, hrow, hlead⟩
                exact (hsame row hrow).trans hlead
              · intro hlead
                obtain ⟨row, hrow⟩ :=
                  List.exists_mem_of_ne_nil _ (List.ne_nil_of_mem_splitBy hgroup)
                exact ⟨row, hrow, (hsame row hrow).symm.trans hlead⟩
            · intro x hx y hy hsame
              exact Grouping.leads_eq_of_sameKey hfields (hrestricts.leads x hx)
                (hrestricts.leads y hy) hsame a b

end Plan
end OrderedQuery
