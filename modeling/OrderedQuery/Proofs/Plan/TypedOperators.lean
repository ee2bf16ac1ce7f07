import OrderedQuery.Proofs.Cursor.OperatorTerms
import OrderedQuery.Proofs.Expr.Soundness
import OrderedQuery.Proofs.Plan.Execution

/-!
# What operators compute has the announced types

Rows fit their types, so all there is to show of an operator is that the rows it computes are of
the type its plan announces, and that nothing it computes on the way goes structurally wrong: the
expressions of a projection and of the bounds of a scan, the keys of these bounds, the rows that
are read back from keys, and the slots of a grouping.
-/

namespace OrderedQuery

/-! ## Projections -/

namespace Projection

theorem evalOn_yields {input : RowType} {row : Row} (hrow : row.Fits input) {env : Env}
    {exprs : List Expr} {types : List ValueType} (htypes : exprTypes input exprs = .ok types)
    (henv : env.Supplies (exprs.flatMap Expr.demands)) :
    Yields QueryError.Circumstantial
      (List.Forall₂ (fun v type => Value.conforms v type = true) · types)
      (evalOn row env exprs) := by
  induction exprs generalizing types with
  | nil =>
      obtain rfl := Except.ok.inj htypes
      exact .ok .nil
  | cons e exprs ih =>
      obtain ⟨type, htype, htypes⟩ := Except.bind_eq_ok_iff.mp htypes
      obtain ⟨types, hrest, htypes⟩ := Except.bind_eq_ok_iff.mp htypes
      obtain rfl := Except.ok.inj htypes
      rw [List.flatMap_cons] at henv
      refine (Expr.eval_yields hrow.covers htype
        (henv.subset (List.subset_append_left _ _))).bind fun v hv => ?_
      refine (ih hrest (henv.subset (List.subset_append_right _ _))).bind fun vs hvs => ?_
      exact .ok (.cons hv hvs)

/-- A projection computes rows of its own type. -/
theorem apply_yields {input : RowType} {exprs : List Expr} {p : Projection}
    (hp : build input exprs = .ok p) {env : Env}
    (henv : env.Supplies (p.exprs.flatMap Expr.demands)) {row : Row} (hrow : row.Fits input) :
    Yields QueryError.Circumstantial (Row.Fits p.rowType) (p.apply env row) := by
  obtain ⟨types, htypes, hp⟩ := Except.bind_eq_ok_iff.mp hp
  obtain rfl := Except.ok.inj hp
  refine (evalOn_yields hrow htypes henv).bind fun values hvalues => ?_
  obtain ⟨r, hr, htype⟩ := RowType.Describes.ofValues (t := .ofFields types) hvalues
  rw [hr]
  exact .ok (congrArg RowType.fields htype)

end Projection

/-! ## Scans -/

namespace Index

variable {ix : Index}

/-- A group of coordinates that has no place on the curve is not a structural error. -/
theorem kind_of_ordinal_eq_error {group : List Value} {e : IndexError}
    (h : ix.ordinal group = .error e) : e.kind = "Spatial" := by
  have hcoordinates (values : List Value) :
      ∀ e, ix.coordinates values = .error e → e.kind = "Spatial" := by
    induction values with
    | nil => exact fun _ h => by cases h
    | cons v values ih =>
        intro e h
        rw [coordinates] at h
        split at h
        · cases h
          rfl
        · cases hrest : ix.coordinates values with
          | error e' =>
              rw [hrest] at h
              cases h
              exact ih _ hrest
          | ok point =>
              rw [hrest] at h
              cases h
  rw [ordinal] at h
  split at h
  · cases h
  · cases hpoint : ix.coordinates group with
    | error e' =>
        rw [hpoint] at h
        cases h
        exact hcoordinates group _ hpoint
    | ok point =>
        rw [hpoint] at h
        cases hspace : Space.ofDimensions group.length with
        | error fault =>
            rw [hspace] at h
            cases h
            rfl
        | ok space =>
            rw [hspace] at h
            change ((space.shuffle point).mapError IndexError.outsideSpace >>= _) = _ at h
            cases hshuffle : space.shuffle point with
            | error fault =>
                rw [hshuffle] at h
                cases h
                rfl
            | ok z =>
                rw [hshuffle] at h
                cases h

/-- Values of the types of leading columns that do not split the coordinates have a key, unless
the coordinates are no point. -/
theorem encodeLeading_failsWith {values : List Value} (hlength : values.length ≤ ix.columns.length)
    (htypes : checkTypes ix.columns values = .ok ())
    (hwhole : ∀ g, ix.spatial = some g → ¬ (g.first < values.length ∧ values.length < g.after)) :
    FailsWith QueryError.Circumstantial ((ix.encodeLeading values).mapError .index) := by
  have hspatial (e : IndexError) (h : ix.encodeChecked values = .error e) : e.kind = "Spatial" := by
    rw [encodeChecked] at h
    split at h
    · cases h
    · rename_i g hg
      rw [if_neg (hwhole g hg)] at h
      dsimp only at h
      split at h
      · cases h
      · cases hordinal : ix.ordinal ((values.drop g.first).take g.dimensions) with
        | error e' =>
            rw [hordinal] at h
            cases h
            exact kind_of_ordinal_eq_error hordinal
        | ok v =>
            rw [hordinal] at h
            cases h
  rw [encodeLeading, if_neg (Nat.not_lt.mpr hlength), htypes]
  intro e h
  cases hchecked : ix.encodeChecked values with
  | error e' =>
      change (ix.encodeChecked values).mapError QueryError.index = _ at h
      rw [hchecked] at h
      cases h
      rw [QueryError.Circumstantial, QueryError.Structural, hspatial e' hchecked]
      decide
  | ok key =>
      change (ix.encodeChecked values).mapError QueryError.index = _ at h
      rw [hchecked] at h
      cases h

end Index

namespace IndexScan

variable {s : IndexScan} {env : Env}

theorem evalAll_yields {es : List Expr} {cs : List Column} (hlength : es.length ≤ cs.length)
    (htypes : checkBoundTypes es cs = .ok ()) (henv : env.Supplies (es.flatMap Expr.demands)) :
    Yields QueryError.Circumstantial (fun values => Index.checkTypes cs values = .ok ())
      (evalAll env es) := by
  induction es generalizing cs with
  | nil =>
      refine .ok ?_
      cases cs <;> rfl
  | cons e es ih =>
      obtain ⟨c, cs, rfl⟩ := List.exists_cons_of_length_pos (Nat.zero_lt_of_lt hlength)
      rw [checkBoundTypes] at htypes
      split at htypes
      · cases htypes
      · obtain ⟨type, htype, htypes⟩ := Except.bind_eq_ok_iff.mp htypes
        split at htypes
        · rename_i hsame
          subst hsame
          rw [List.flatMap_cons] at henv
          have hnone : Expr.Covers (.ofFields []) none := fun i type h => by cases h
          refine (Expr.eval_yields hnone htype
            (henv.subset (List.subset_append_left _ _))).bind fun v hv => ?_
          refine (ih (Nat.le_of_succ_le_succ hlength) htypes
            (henv.subset (List.subset_append_right _ _))).bind fun vs hvs => .ok ?_
          rw [Index.checkTypes, if_pos hv]
          exact hvs
        · cases htypes

theorem checkBounds_of_build {ix : Index} {range : ScanRange} {ordering : List Bool}
    (h : build ix range ordering = .ok s) : checkBounds s.index s.range.bounds = .ok () := by
  obtain ⟨hindex, hrange, -⟩ := build_eq_ok h
  obtain ⟨direction, -, h⟩ := Except.bind_eq_ok_iff.mp h
  obtain ⟨⟨⟩, hbounds, -⟩ := Except.bind_eq_ok_iff.mp h
  rw [hindex, hrange, hbounds]

theorem checkBound_of_checkBounds {ix : Index} {bounds : List ScanBound}
    (h : checkBounds ix bounds = .ok ()) : ∀ b ∈ bounds, checkBound ix b = .ok () := by
  induction bounds with
  | nil => exact fun b hb => by cases hb
  | cons b bounds ih =>
      obtain ⟨⟨⟩, hb, hrest⟩ := Except.bind_eq_ok_iff.mp h
      intro b' hb'
      rcases List.mem_cons.mp hb' with rfl | hmem
      · exact hb
      · exact ih hrest b' hmem

/-- The bound of an accepted scan has a key in environments that supply what it demands. -/
theorem encodeBound_failsWith {b : ScanBound} (h : checkBound s.index b = .ok ())
    (henv : env.Supplies (b.values.flatMap Expr.demands)) :
    FailsWith QueryError.Circumstantial (s.encodeBound env (some b)) := by
  rw [checkBound] at h
  split at h
  · cases h
  · split at h
    · cases h
    · rename_i hshort
      have hlength := Nat.not_lt.mp hshort
      obtain ⟨⟨⟩, htypes, hwhole⟩ := Except.bind_eq_ok_iff.mp h
      have hevaluated := evalAll_yields hlength htypes henv
      rw [encodeBound]
      cases hvalues : evalAll env b.values with
      | error e =>
          rw [hvalues] at hevaluated
          exact .error hevaluated.of_error
      | ok values =>
          rw [hvalues] at hevaluated
          have hsame := evalAll_length hvalues
          have hkey : FailsWith QueryError.Circumstantial
              ((s.index.encodeLeading values).mapError .index) := by
            refine Index.encodeLeading_failsWith (by omega) hevaluated.of_ok ?_
            intro g hg hsplit
            rw [hg] at hwhole
            dsimp only at hwhole
            rw [← hsame, if_pos hsplit] at hwhole
            cases hwhole
          exact hkey.bind fun _ => .ok _

/-- An accepted scan computes its range of keys in environments that supply what its bounds
demand. -/
theorem keyRange_failsWith {ix : Index} {range : ScanRange} {ordering : List Bool}
    (h : build ix range ordering = .ok s)
    (henv : env.Supplies (s.range.exprs.flatMap Expr.demands)) :
    FailsWith QueryError.Circumstantial (s.keyRange env) := by
  have hchecked := checkBound_of_checkBounds (checkBounds_of_build h)
  have hbound (bound : Option ScanBound) (hmem : ∀ b ∈ bound, b ∈ s.range.bounds) :
      FailsWith QueryError.Circumstantial (s.encodeBound env bound) := by
    cases bound with
    | none => exact .ok none
    | some b =>
        have hb := hmem b rfl
        refine encodeBound_failsWith (hchecked b hb) (henv.subset fun d hd => ?_)
        obtain ⟨e, he, hd⟩ := List.mem_flatMap.mp hd
        exact List.mem_flatMap.mpr ⟨e, List.mem_flatMap.mpr ⟨b, hb, he⟩, hd⟩
  refine (hbound s.range.low ?_).bind fun low => (hbound s.range.high ?_).bind fun high => ?_
  · exact fun b hb => List.mem_append_left _ (Option.mem_toList.mpr hb)
  · exact fun b hb => List.mem_append_right _ (Option.mem_toList.mpr hb)
  · split
    split <;> exact .ok _

/-- What is read back from the key of a row is a row of the index. -/
theorem rowOf_yields {d : Index.Draft} {ix : Index} (hix : d.build = .ok ix) {range : ScanRange}
    {ordering : List Bool} (h : build ix range ordering = .ok s) {key : Bytes}
    (hkey : ∃ row, s.index.encodeRow row = .ok key) :
    Yields QueryError.Circumstantial (Row.Fits s.rowType) (IndexScanCursor.rowOf s key) := by
  obtain ⟨rfl, -, htype, -, -⟩ := build_eq_ok h
  obtain ⟨row, hrow⟩ := hkey
  obtain ⟨r, hr, -⟩ := rowOf_encodeRow (Index.valid_of_build hix) htype hrow
  rw [hr]
  obtain ⟨values, -, hvalues⟩ := Except.bind_eq_ok_iff.mp hr
  exact .ok (congrArg RowType.fields (Row.type_of_ofValues hvalues))

end IndexScan
end OrderedQuery
