import OrderedQuery.Proofs.Index.RoundTrip
import OrderedQuery.Proofs.Plan.ReadPositions
import OrderedQuery.Proofs.Plan.Tiling
import OrderedQuery.Proofs.Value.Basic

/-!
# Scans of a range as filters

A scan with bounds on its first column compares bytes of keys, and a selection from a scan without
bounds compares values, with null as a third truth value.  Both return the same rows as long as
the column holds no floats: the two orders are one on values of the type, and null, which satisfies
no comparison, is below every low bound.
-/

namespace OrderedQuery

namespace Value

variable {v w : Value} {type : ValueType}

/-- Null is below every other value, so nothing above a bound is null. -/
theorem not_isNull_of_orderAbove {inclusive : Bool} (hw : w.type? = some type)
    (h : OrderAbove (v.totalCompare w) inclusive) : v.isNull = false := by
  cases v with
  | null =>
      have hlt : null.totalCompare w = .lt := by cases w <;> cases hw <;> rfl
      rw [hlt] at h
      rcases h with hgt | ⟨-, heq⟩
      · cases hgt
      · cases heq
  | _ => rfl

/-- Apart from floats, values are read back as they are. -/
theorem canonical_eq_self (hv : v.conforms type) (htype : type ≠ .float) : v.canonical = v := by
  cases v with
  | float x =>
      rcases conforms_iff.mp hv with hnull | hfloat
      · cases hnull
      · exact absurd (Option.some.inj hfloat).symm htype
  | _ => rfl

end Value

namespace Comparison

/-- The comparison with a low bound. -/
def above (inclusive : Bool) : Comparison := if inclusive then ge else gt

/-- The comparison with a high bound. -/
def below (inclusive : Bool) : Comparison := if inclusive then le else lt

theorem above_holds_iff {inclusive : Bool} {o : Ordering} :
    (above inclusive).holds o = true ↔ OrderAbove o inclusive := by
  cases inclusive <;> cases o <;> simp [above, holds, OrderAbove]

theorem below_holds_iff {inclusive : Bool} {o : Ordering} :
    (below inclusive).holds o = true ↔ OrderBelow o inclusive := by
  cases inclusive <;> cases o <;> simp [below, holds, OrderBelow]

/-- The truth of a comparison of values, the first of which may be null. -/
def truth (op : Comparison) (v w : Value) : Option Bool :=
  if v.isNull then none else some (op.holds (v.totalCompare w))

variable {v x : Value} {type : ValueType} {inclusive : Bool}

/-- Null is not above a low bound, so there is no need to ask for it. -/
theorem truth_above_iff (hv : v.type? = some type) :
    (above inclusive).truth x v = some true ↔ OrderAbove (x.totalCompare v) inclusive := by
  rw [truth]
  cases hnull : x.isNull with
  | true =>
      refine iff_of_false nofun ?_
      intro habove
      rw [Value.not_isNull_of_orderAbove hv habove] at hnull
      cases hnull
  | false => simp [above_holds_iff]

theorem truth_below_iff (hx : x.isNull = false) :
    (below inclusive).truth x v = some true ↔ OrderBelow (x.totalCompare v) inclusive := by
  rw [truth, hx]
  simp [below_holds_iff]

end Comparison

namespace Expr

variable {e l r : Expr} {env : Env} {row : Row} {v x : Value} {type : ValueType} {a b : Option Bool}

theorem truth_ofTruth (a : Option Bool) : truth (ofTruth a) = .ok a := by
  cases a <;> rfl

theorem eval_and (hl : l.eval (some row) env = .ok (ofTruth a))
    (hr : r.eval (some row) env = .ok (ofTruth b)) :
    (and l r).eval (some row) env = .ok (ofTruth (conjunction a b)) := by
  rw [eval, hl, hr]
  show (truth (ofTruth a) >>= fun a => if a = some false then .ok (.bool false)
    else truth (ofTruth b) >>= fun b => .ok (ofTruth (conjunction a b))) = _
  rw [truth_ofTruth, truth_ofTruth]
  rcases a with _ | ⟨⟨⟩ | ⟨⟩⟩ <;> rfl

theorem conjunction_eq_true_iff : conjunction a b = some true ↔ a = some true ∧ b = some true := by
  rcases a with _ | ⟨⟨⟩ | ⟨⟩⟩ <;> rcases b with _ | ⟨⟨⟩ | ⟨⟩⟩ <;> decide

theorem isTrueOn_iff (h : e.eval (some row) env = .ok (ofTruth a)) :
    e.isTrueOn env row = true ↔ a = some true := by
  rw [isTrueOn, h]
  rcases a with _ | ⟨⟨⟩ | ⟨⟩⟩ <;> decide

theorem compareValues_eq (op : Comparison) (hx : x.conforms type) (hv : v.type? = some type)
    (htype : type ≠ .float) : compareValues op x v = .ok (ofTruth (op.truth x v)) := by
  have hvnull : v.isNull = false := by cases v <;> cases hv <;> rfl
  rw [compareValues, Comparison.truth, hvnull, Bool.or_false]
  cases hnull : x.isNull with
  | true => rfl
  | false =>
      have hxtype := type?_of_not_isNull hx hnull
      rw [Value.compare_eq_totalCompare hxtype hv htype]
      rfl

/-- The comparison of the first field with an expression that reads no fields. -/
theorem eval_compare_first (op : Comparison) (hfields : e.readsFields = false)
    (he : e.eval none env = .ok v) (hv : v.type? = some type) (hfirst : row.value? 0 = some x)
    (hx : x.conforms type) (htype : type ≠ .float) :
    (compare op (.field 0) e).eval (some row) env = .ok (ofTruth (op.truth x v)) := by
  rw [eval, eval, hfirst, eval_of_not_readsFields hfields, he]
  exact compareValues_eq op hx hv htype

/-- The comparison of the first field with an expression of its type is a predicate. -/
theorem type_compare_first {input : RowType} (op : Comparison)
    (hfirst : input.field? 0 = some type) (hfields : e.readsFields = false)
    (htype : e.type (.ofFields []) = .ok type) :
    (compare op (.field 0) e).type input = .ok .bool := by
  have hsame : type.comparable type = true := by cases type <;> rfl
  rw [Expr.type, Expr.type, hfirst, type_of_not_readsFields hfields input (.ofFields []), htype]
  show comparisonType op type type = _
  rw [comparisonType, if_pos hsame]

end Expr

theorem Plan.checkPositions_eq_ok_iff {es : List Expr} :
    checkPositions es = .ok () ↔ ∀ e ∈ es, ∀ position ∈ e.reads, position ≤ maxPosition := by
  induction es with
  | nil => exact iff_of_true rfl (List.forall_mem_nil _)
  | cons e es ih =>
      have hnone : (e.boundPositions.find? fun p => decide (maxPosition < p)) = none ↔
          ∀ position ∈ e.reads, position ≤ maxPosition := by
        simp [List.find?_eq_none, Expr.boundPositions, mem_ascendingSet]
      rw [checkPositions, List.forall_mem_cons, ← ih, ← hnone]
      cases e.boundPositions.find? fun p => decide (maxPosition < p) with
      | none => simp
      | some position => simp

theorem IndexScan.evalAll_singleton_iff {env : Env} {e : Expr} {values : List Value} :
    evalAll env [e] = .ok values ↔ ∃ v, e.eval none env = .ok v ∧ values = [v] := by
  rw [evalAll]
  cases e.eval none env with
  | error err => simp [bind, Except.bind]
  | ok v => simp [bind, Except.bind, evalAll, eq_comm]

/-- Bounds on the first column: a low one, and perhaps a high one, each of which is inclusive or
exclusive. -/
structure FirstBounds where
  low : Expr
  lowInclusive : Bool
  high : Option (Expr × Bool)

namespace FirstBounds

/-- The bounds as those of a scan. -/
def range (b : FirstBounds) : ScanRange :=
  ⟨some ⟨[b.low], b.lowInclusive⟩, b.high.map fun h => ⟨[h.1], h.2⟩⟩

/-- The bounds as a predicate. -/
def predicate (b : FirstBounds) : Expr :=
  let low : Expr := .compare (.above b.lowInclusive) (.field 0) b.low
  match b.high with
  | none => low
  | some (e, inclusive) => .and low (.compare (.below inclusive) (.field 0) e)

/-- The bounds have values of a type, none of them null. -/
structure Evaluates (b : FirstBounds) (env : Env) (type : ValueType) : Prop where
  low : ∃ v, b.low.eval none env = .ok v ∧ v.type? = some type
  high : ∀ h ∈ b.high, ∃ v, h.1.eval none env = .ok v ∧ v.type? = some type

/-- A value lies within the bounds. -/
def Admits (b : FirstBounds) (env : Env) (x : Value) : Prop :=
  (∀ v, b.low.eval none env = .ok v → OrderAbove (x.totalCompare v) b.lowInclusive) ∧
    ∀ h ∈ b.high, ∀ v, h.1.eval none env = .ok v → OrderBelow (x.totalCompare v) h.2

variable {b : FirstBounds} {env : Env} {type : ValueType} {row : Row} {x : Value}

/-- A value that lies within the bounds is not null. -/
theorem Admits.not_isNull (h : b.Admits env x) (hb : b.Evaluates env type) :
    x.isNull = false := by
  obtain ⟨v, hlow, hv⟩ := hb.low
  exact Value.not_isNull_of_orderAbove hv (h.1 v hlow)

section

variable (hlow : b.low.readsFields = false) (hhigh : ∀ h ∈ b.high, h.1.readsFields = false)
  (hb : b.Evaluates env type) (hfirst : row.value? 0 = some x) (hx : x.conforms type)
  (htype : type ≠ .float)

include hlow hhigh hb hfirst hx htype

/-- The predicate has a truth value on every row whose first field is of the type or null, and is
true if this field lies within the bounds. -/
theorem exists_truth : ∃ a, b.predicate.eval (some row) env = .ok (Expr.ofTruth a) ∧
    (a = some true ↔ b.Admits env x) := by
  obtain ⟨v, hv, hvtype⟩ := hb.low
  have heval := Expr.eval_compare_first (.above b.lowInclusive) hlow hv hvtype hfirst hx htype
  have habove : (Comparison.above b.lowInclusive).truth x v = some true ↔
      ∀ v', b.low.eval none env = .ok v' → OrderAbove (x.totalCompare v') b.lowInclusive := by
    rw [Comparison.truth_above_iff hvtype, hv]
    simp
  rw [predicate]
  cases hsome : b.high with
  | none =>
      refine ⟨_, heval, ?_⟩
      rw [habove, Admits, hsome]
      simp
  | some high =>
      obtain ⟨e, inclusive⟩ := high
      obtain ⟨u, hu, hutype⟩ := hb.high _ hsome
      have heval' := Expr.eval_compare_first (.below inclusive) (hhigh _ hsome) hu hutype hfirst hx
        htype
      refine ⟨_, Expr.eval_and heval heval', ?_⟩
      rw [Expr.conjunction_eq_true_iff, habove, Admits, hsome]
      refine and_congr_right fun hlow' => ?_
      have hnull := Value.not_isNull_of_orderAbove hvtype (hlow' v hv)
      rw [Comparison.truth_below_iff hnull]
      constructor
      · rintro hbelow _ ⟨⟩ u' hu'
        obtain rfl := Except.ok.inj (hu.symm.trans hu')
        exact hbelow
      · intro hall
        exact hall _ rfl u hu

end

/-! ## Accepted bounds -/

variable {ix : Index} {c : Column} {columns : List Column} {ordering : List Bool} {s : IndexScan}

/-- An accepted bound of one value: it reads no fields, is of the type of the first column, and
ends in front of the coordinates. -/
theorem of_checkBound {e : Expr} {inclusive : Bool} (hcolumns : ix.columns = c :: columns)
    (h : IndexScan.checkBound ix ⟨[e], inclusive⟩ = .ok ()) :
    e.readsFields = false ∧ e.type (.ofFields []) = .ok c.type ∧
      ∀ g, ix.spatial = some g → ¬(g.first < 1 ∧ 1 < g.after) := by
  have hlength : ([e] : List Expr).length = 1 := rfl
  rw [IndexScan.checkBound, hlength, if_neg (by decide), hcolumns] at h
  dsimp only at h
  split at h
  · cases h
  · obtain ⟨⟨⟩, htypes, hwhole⟩ := Except.bind_eq_ok_iff.mp h
    rw [IndexScan.checkBoundTypes] at htypes
    split at htypes
    · cases htypes
    · rename_i hfields
      obtain ⟨type, htype, hsame⟩ := Except.bind_eq_ok_iff.mp htypes
      split at hsame
      · rename_i heq
        refine ⟨Bool.eq_false_of_not_eq_true hfields, by rw [htype, heq], ?_⟩
        intro g hg hsplit
        rw [hg] at hwhole
        dsimp only at hwhole
        rw [if_pos hsplit] at hwhole
        cases hwhole
      · cases hsame

theorem mem_bounds_iff {bound : ScanBound} :
    bound ∈ b.range.bounds ↔
      bound = ⟨[b.low], b.lowInclusive⟩ ∨ ∃ h ∈ b.high, bound = ⟨[h.1], h.2⟩ := by
  cases hhigh : b.high with
  | none => simp [range, ScanRange.bounds, hhigh]
  | some h => simp [range, ScanRange.bounds, hhigh]

theorem mem_exprs_iff {e : Expr} :
    e ∈ b.range.exprs ↔ e = b.low ∨ ∃ h ∈ b.high, e = h.1 := by
  cases hhigh : b.high with
  | none => simp [range, ScanRange.exprs, ScanRange.bounds, hhigh]
  | some h => simp [range, ScanRange.exprs, ScanRange.bounds, hhigh]

theorem of_build (hcolumns : ix.columns = c :: columns)
    (h : IndexScan.build ix b.range ordering = .ok s) :
    ∀ e ∈ b.range.exprs, e.readsFields = false ∧ e.type (.ofFields []) = .ok c.type ∧
      ∀ g, ix.spatial = some g → ¬(g.first < 1 ∧ 1 < g.after) := by
  have hchecked := IndexScan.checkBound_of_checkBounds (IndexScan.checkBounds_of_build h)
  obtain ⟨rfl, hrange, -⟩ := IndexScan.build_eq_ok h
  rw [hrange] at hchecked
  intro e he
  rcases mem_exprs_iff.mp he with rfl | ⟨high, hhigh, rfl⟩
  · exact of_checkBound hcolumns (hchecked _ (mem_bounds_iff.mpr (.inl rfl)))
  · exact of_checkBound hcolumns (hchecked _ (mem_bounds_iff.mpr (.inr ⟨high, hhigh, rfl⟩)))

/-- The predicate reads what the bounds read. -/
theorem checkPositions_predicate (h : Plan.checkPositions b.range.exprs = .ok ()) :
    Plan.checkPositions [b.predicate] = .ok () := by
  rw [Plan.checkPositions_eq_ok_iff] at h ⊢
  intro e he position hposition
  obtain rfl := List.mem_singleton.mp he
  have hlow := h b.low (mem_exprs_iff.mpr (.inl rfl)) position
  rw [predicate] at hposition
  cases hhigh : b.high with
  | none =>
      rw [hhigh] at hposition
      exact hlow hposition
  | some high =>
      rw [hhigh] at hposition
      rcases List.mem_append.mp hposition with hmem | hmem
      · exact hlow hmem
      · exact h high.1 (mem_exprs_iff.mpr (.inr ⟨high, hhigh, rfl⟩)) position hmem

theorem type_predicate {input : RowType} (hfirst : input.field? 0 = some type)
    (h : ∀ e ∈ b.range.exprs, e.readsFields = false ∧ e.type (.ofFields []) = .ok type) :
    b.predicate.type input = .ok .bool := by
  obtain ⟨hfields, htype⟩ := h b.low (mem_exprs_iff.mpr (.inl rfl))
  have hlow := Expr.type_compare_first (.above b.lowInclusive) hfirst hfields htype
  rw [predicate]
  cases hhigh : b.high with
  | none => exact hlow
  | some high =>
      obtain ⟨hfields', htype'⟩ := h high.1 (mem_exprs_iff.mpr (.inr ⟨high, hhigh, rfl⟩))
      have hbelow := Expr.type_compare_first (.below high.2) hfirst hfields' htype'
      dsimp only
      rw [Expr.type, hlow, hbelow]
      rfl

theorem demands_singleton_iff (hv : ix.Valid) {e : Expr} {inclusive : Bool}
    (accepts : Ordering → Bool → Prop) (rest : List Value) :
    IndexScan.Demands env (some ⟨[e], inclusive⟩) accepts (ix.compareBound (x :: rest)) ↔
      ∀ v, e.eval none env = .ok v → accepts (x.totalCompare v) inclusive := by
  constructor
  · intro h v hvalue
    have haccepts := h _ rfl [v] (IndexScan.evalAll_singleton_iff.mpr ⟨v, hvalue, rfl⟩)
    rwa [Index.compareBound_cons hv] at haccepts
  · rintro h _ ⟨⟩ values hvalues
    obtain ⟨v, hvalue, rfl⟩ := IndexScan.evalAll_singleton_iff.mp hvalues
    rw [Index.compareBound_cons hv]
    exact h v hvalue

/-- The rows that satisfy the bounds of the scan are those whose first value lies within them. -/
theorem admits_iff (hv : s.index.Valid) (hrange : s.range = b.range) (rest : List Value) :
    s.Admits env (x :: rest) ↔ b.Admits env x := by
  rw [IndexScan.admits_iff, hrange, range, demands_singleton_iff hv, Admits]
  refine and_congr_right fun _ => ?_
  cases b.high with
  | none => exact iff_of_true IndexScan.demands_none nofun
  | some high =>
      rw [Option.map_some, demands_singleton_iff hv]
      simp

/-- Both bounds have keys. -/
theorem encodes (hv : s.index.Valid) (hcolumns : s.index.columns = c :: columns)
    (hrange : s.range = b.range) (hb : b.Evaluates env c.type)
    (hwhole : ∀ g, s.index.spatial = some g → ¬(g.first < 1 ∧ 1 < g.after)) : s.Encodes env := by
  have hkey {e : Expr} (he : ∃ v, e.eval none env = .ok v ∧ v.type? = some c.type) :
      ∃ values key, IndexScan.evalAll env [e] = .ok values ∧
        s.index.encodeLeading values = .ok key := by
    obtain ⟨v, hvalue, htype⟩ := he
    have hconforms : v.conforms c.type := Value.conforms_iff.mpr (.inr htype)
    obtain ⟨key, hkey⟩ := Index.exists_encodeLeading_singleton hv hcolumns hconforms hwhole
    exact ⟨[v], key, IndexScan.evalAll_singleton_iff.mpr ⟨v, hvalue, rfl⟩, hkey⟩
  intro bound hbound
  rw [hrange] at hbound
  rcases mem_bounds_iff.mp hbound with rfl | ⟨high, hhigh, rfl⟩
  · exact hkey hb.low
  · exact hkey (hb.high high hhigh)

end FirstBounds

/-- A row that has a key begins with a value of the type of the first column. -/
theorem Index.exists_first_of_encodeRow {ix : Index} {c : Column} {columns : List Column}
    {values : List Value} {key : Bytes} (hv : ix.Valid) (hcolumns : ix.columns = c :: columns)
    (h : ix.encodeRow values = .ok key) : ∃ x rest, values = x :: rest ∧ x.conforms c.type := by
  obtain ⟨hlength, hstorable, -⟩ := encodeRow_eq_ok hv h
  have htypes := checkTypes_eq_ok_iff.mp hstorable.types
  rw [hcolumns] at hlength htypes
  cases values with
  | nil => cases hlength
  | cons x rest => exact ⟨x, rest, rfl, htypes (x, c) List.mem_cons_self⟩

/-! ## Both plans -/

namespace IndexScan

variable {ix : Index} {c : Column} {columns : List Column} {ordering : List Bool} {s : IndexScan}
  {store : Store} {env : Env}

/-- The scan without the bounds. -/
def unbounded (s : IndexScan) : IndexScan :=
  { s with range := ⟨none, none⟩, boundsDescending := false }

theorem build_unbounded {range : ScanRange} (h : build ix range ordering = .ok s) :
    build ix ⟨none, none⟩ ordering = .ok s.unbounded := by
  obtain ⟨direction, hdirection, h⟩ := Except.bind_eq_ok_iff.mp h
  obtain ⟨⟨⟩, -, h⟩ := Except.bind_eq_ok_iff.mp h
  rw [build, hdirection]
  dsimp only at h
  split at h
  · cases h
  · obtain rfl := Except.ok.inj h
    rfl

theorem allRows_unbounded (s : IndexScan) (store : Store) :
    s.unbounded.allRows store = s.allRows store := by
  have hdecoded (entries : List Entry) :
      s.unbounded.decodeRows entries = s.decodeRows entries := by
    induction entries with
    | nil => rfl
    | cons e entries ih =>
        have hrow : IndexScanCursor.rowOf s.unbounded e.1 = IndexScanCursor.rowOf s e.1 := rfl
        rw [decodeRows, decodeRows, hrow, ih]
  rw [allRows, hdecoded]
  rfl

theorem denotes_allRows (hv : ix.Valid) (h : build ix ⟨none, none⟩ ordering = .ok s)
    (hkeys : ix.KeysOnly store) (allowed : Nat) (env : Env) :
    (Plan.scan s).Denotes store allowed env (s.allRows store) := by
  obtain ⟨rfl, hrange, -⟩ := build_eq_ok h
  have hencodes : s.Encodes env := by
    intro bound hbound
    rw [hrange] at hbound
    cases hbound
  have hall : (Plan.scan s).Denotes store allowed env
      ((s.allRows store).filter fun _ => true) := by
    refine denotes_filter hv h hkeys hencodes ?_ allowed
    intro values key row hkey hvalues
    rw [admits_iff, hrange]
    exact iff_of_true ⟨demands_none, demands_none⟩ rfl
  rwa [List.filter_true] at hall

end IndexScan

namespace Plan

variable {ix : Index} {c : Column} {columns : List Column} {ordering : List Bool} {s : IndexScan}
  {store : Store} {env : Env} {b : FirstBounds}

/-- A scan with bounds returns those of all rows on which the predicate is true. -/
theorem denotes_bounds (hv : ix.Valid) (hcolumns : ix.columns = c :: columns)
    (htype : c.type ≠ .float) (hbuild : IndexScan.build ix b.range ordering = .ok s)
    (hkeys : ix.KeysOnly store) (hb : b.Evaluates env c.type) (allowed : Nat) :
    (∀ row ∈ s.allRows store, ∃ x a, row.value? 0 = some x ∧
        b.predicate.eval (some row) env = .ok (Expr.ofTruth a) ∧
        (a = some true ↔ b.Admits env x)) ∧
      (scan s).Denotes store allowed env ((s.allRows store).filter (b.predicate.isTrueOn env)) := by
  have hbounds := FirstBounds.of_build hcolumns hbuild
  obtain ⟨hlow, -, hwhole⟩ := hbounds b.low (FirstBounds.mem_exprs_iff.mpr (.inl rfl))
  have hhigh : ∀ h ∈ b.high, h.1.readsFields = false := fun h hmem =>
    (hbounds h.1 (FirstBounds.mem_exprs_iff.mpr (.inr ⟨h, hmem, rfl⟩))).1
  have hfirst : ∀ values key row, ix.encodeRow values = .ok key →
      row.values = values.map Value.canonical → ∃ x rest a, values = x :: rest ∧
        row.value? 0 = some x ∧ b.predicate.eval (some row) env = .ok (Expr.ofTruth a) ∧
        (a = some true ↔ b.Admits env x) := by
    intro values key row hkey hvalues
    obtain ⟨x, rest, rfl, hx⟩ := Index.exists_first_of_encodeRow hv hcolumns hkey
    have hvalue : row.value? 0 = some x := by
      rw [Row.value?, hvalues, List.map_cons, List.getElem?_cons_zero,
        Value.canonical_eq_self hx htype]
    obtain ⟨a, heval, ha⟩ := FirstBounds.exists_truth hlow hhigh hb hvalue hx htype
    exact ⟨x, rest, a, rfl, hvalue, heval, ha⟩
  constructor
  · intro row hrow
    obtain ⟨values, key, hkey, hvalues⟩ :=
      IndexScan.exists_values_of_mem_allRows hv hbuild hkeys hrow
    obtain ⟨x, -, a, -, hvalue, heval, ha⟩ := hfirst values key row hkey hvalues
    exact ⟨x, a, hvalue, heval, ha⟩
  · obtain ⟨rfl, hrange, -⟩ := IndexScan.build_eq_ok hbuild
    refine IndexScan.denotes_filter hv hbuild hkeys
      (FirstBounds.encodes hv hcolumns hrange hb hwhole) ?_ allowed
    intro values key row hkey hvalues
    obtain ⟨x, rest, a, rfl, -, heval, ha⟩ := hfirst values key row hkey hvalues
    rw [FirstBounds.admits_iff hv hrange, ← ha, Expr.isTrueOn_iff heval]

/-- A scan without bounds in the same order, and the selection from it, are accepted. -/
theorem ofScan_unbounded_of_bounds (hcolumns : ix.columns = c :: columns)
    (hbuild : IndexScan.build ix b.range ordering = .ok s)
    (hpositions : checkPositions b.range.exprs = .ok ()) :
    ofScan ix ⟨none, none⟩ ordering = .ok (scan s.unbounded) ∧
      ofSelect (scan s.unbounded) b.predicate = .ok (select (scan s.unbounded) b.predicate) := by
  have hbounds := FirstBounds.of_build hcolumns hbuild
  have hunbounded := IndexScan.build_unbounded hbuild
  obtain ⟨rfl, -, hrow, -⟩ := IndexScan.build_eq_ok hbuild
  constructor
  · rw [ofScan, hunbounded]
    rfl
  · have hfirst : s.rowType.field? 0 = some c.type := by
      rw [hrow, RowType.field?, IndexScan.rowTypeOf, hcolumns]
      rfl
    rw [ofSelect, FirstBounds.checkPositions_predicate hpositions]
    show (b.predicate.type s.rowType >>= _) = _
    rw [FirstBounds.type_predicate hfirst fun e he => ⟨(hbounds e he).1, (hbounds e he).2.1⟩]
    rfl

/-- A scan with bounds on the first column, unless this is one of floats, and the selection of
rows whose first field satisfies the same bounds, from a scan without bounds in the same order:
both are accepted and return the same rows in the same order.  Rows whose first field is null are
not among them. -/
theorem bounded_scan_eq_select {d : Index.Draft} (hdraft : d.build = .ok ix)
    (htable : Layout.ZeroFree ix.table) (hname : Layout.ZeroFree ix.name)
    (hcolumns : ix.columns = c :: columns) (htype : c.type ≠ .float)
    {rows : List (List Value)} (hholds : ix.Holds rows store) {p : Plan}
    (hp : ofScan ix b.range ordering = .ok p) (hb : b.Evaluates env c.type) {ctx : Context}
    {w : World} (hw : Calm ctx store w) :
    ∃ full q, ofScan ix ⟨none, none⟩ ordering = .ok full ∧ ofSelect full b.predicate = .ok q ∧
      ∃ out, (p.execute ctx env w).1 = .ok out ∧ (q.execute ctx env w).1 = .ok out ∧
        ∀ row ∈ out, ∃ x, row.value? 0 = some x ∧ x.isNull = false := by
  have hv := Index.valid_of_build hdraft
  have hkeys := hholds.keysOnly
  obtain ⟨s, hbuild, h⟩ := Except.bind_eq_ok_iff.mp hp
  obtain ⟨⟨⟩, hpositions, h⟩ := Except.bind_eq_ok_iff.mp h
  obtain rfl := Except.ok.inj h
  obtain ⟨hfull, hselect⟩ := ofScan_unbounded_of_bounds hcolumns hbuild hpositions
  obtain ⟨htruths, hbounded⟩ := denotes_bounds hv hcolumns htype hbuild hkeys hb
    ctx.config.maxRowsInMemory
  have hscan : Built .builtins (scan s) := .scan htable hname hp
  have hselected : Built .builtins (select (scan s.unbounded) b.predicate) :=
    .select (.scan htable hname hfull) hselect
  refine ⟨_, _, hfull, hselect, _, (hscan.execute_eq_ok_iff hw).mpr hbounded,
    (hselected.execute_eq_ok_iff hw).mpr ?_, ?_⟩
  · have hall := IndexScan.denotes_allRows hv (IndexScan.build_unbounded hbuild) hkeys
      ctx.config.maxRowsInMemory env
    rw [IndexScan.allRows_unbounded] at hall
    refine .select hall ?_
    intro row hrow
    obtain ⟨x, a, -, heval, -⟩ := htruths row hrow
    exact ⟨_, heval⟩
  · intro row hrow
    obtain ⟨hmem, htrue⟩ := List.mem_filter.mp hrow
    obtain ⟨x, a, hvalue, heval, ha⟩ := htruths row hmem
    exact ⟨x, hvalue, (ha.mp ((Expr.isTrueOn_iff heval).mp htrue)).not_isNull hb⟩

/-- A descending column of strings, one of which is null, read backward above a bound string. -/
theorem bounded_scan_eq_select_descending :
    let ix : Index := ⟨"t", "i",
      [⟨"a", .string, false, .declared⟩, ⟨"b", .int, true, .declared⟩], 2, false, none⟩
    let key := fun a b => Layout.storedKey "t.i" (Key.encode true a ++ Key.encode false b)
    let store := (((Store.empty.insert (key .null (.int 1)) []).insert
      (key (.string "a") (.int 2)) [] |>.insert (key (.string "ab") (.int 3)) []).insert
      (key (.string "c") (.int 4)) [])
    let b : FirstBounds := ⟨.bound 3 .string, false, some (.literal (.string "c"), true)⟩
    let env := Env.root.set 3 (.value (.string "a"))
    let bounded : Plan := .scan ⟨ix, b.range, .backward, true, IndexScan.rowTypeOf ix⟩
    let full : Plan := .scan ⟨ix, ⟨none, none⟩, .backward, false, IndexScan.rowTypeOf ix⟩
    let made := (World.ofEngine ⟨store, [], 0⟩).newContext {}
    (bounded.execute made.1 env made.2).1.map (List.map Row.values) =
        .ok [[.string "ab", .int 3], [.string "c", .int 4]] ∧
      ((Plan.select full b.predicate).execute made.1 env made.2).1 =
        (bounded.execute made.1 env made.2).1 := by
  intro ix key store b env bounded full made
  have hdraft : Index.Draft.build ⟨"t", "i", ix.columns, false, none⟩ = .ok ix := rfl
  have hbounded : ofScan ix b.range [true] = .ok bounded := rfl
  have hfull : ofScan ix ⟨none, none⟩ [true] = .ok full := rfl
  have hselect : ofSelect full b.predicate = .ok (.select full b.predicate) := rfl
  have hholds : ix.Holds [[.string "c", .int 4], [.string "ab", .int 3], [.string "a", .int 2],
      [.null, .int 1]] store :=
    ((((Index.holds_empty ix).insert rfl []).insert rfl []).insert rfl []).insert rfl []
  have hb : b.Evaluates env .string := by
    refine ⟨⟨_, rfl, rfl⟩, ?_⟩
    rintro _ ⟨⟩
    exact ⟨_, rfl, rfl⟩
  have hw : Calm made.1 store made.2 := ⟨rfl, rfl, rfl⟩
  obtain ⟨full', q, hfull', hq, out, hout, hout', -⟩ :=
    bounded_scan_eq_select hdraft (by decide +kernel) (by decide +kernel)
      rfl nofun hholds hbounded hb hw
  obtain rfl := Except.ok.inj (hfull.symm.trans hfull')
  obtain rfl := Except.ok.inj (hselect.symm.trans hq)
  exact ⟨by decide +kernel, hout'.trans hout.symm⟩

end Plan
end OrderedQuery
