import OrderedQuery.Proofs.Index.Bounds
import OrderedQuery.Proofs.Index.WellFormed

/-!
# Drafts that are accepted

The checks of a draft stay within its list of columns, whatever group it has.  A definition that
passes them stays within its bounds, and its stored keys are laid out as its columns say: each
column that is no coordinate keeps its place and its direction, and the ordinal stands in the place
of the coordinates.
-/

namespace OrderedQuery
namespace Index

variable {ix : Index} {d : Draft}

/-! ## Within bounds -/

/-- The check reads no column that is not there. -/
theorem checkGroup?_eq (d : Draft) (g : CoordinateGroup) :
    d.checkGroup? g = some (d.checkGroup g) := by
  unfold Draft.checkGroup? Draft.checkGroup
  split
  · rfl
  · split
    · rfl
    · split
      · rfl
      · rename_i hwithin
        have hcount : d.declaredCount ≤ d.columns.length :=
          (List.takeWhile_sublist isDeclared).length_le
        rw [slice?_group (by omega), Option.bind_eq_bind, Option.bind_some]
        cases ((d.columns.drop g.first).take g.dimensions).find? _ <;> rfl

theorem build?_eq (d : Draft) : d.build? = some d.build := by
  have hcount : d.declaredCount ≤ d.columns.length :=
    (List.takeWhile_sublist isDeclared).length_le
  unfold Draft.build? Draft.build
  dsimp only
  rw [slice?_to_end hcount, Option.bind_eq_bind, Option.bind_some]
  split
  · rfl
  · split
    · rfl
    · cases d.duplicate? with
      | some name => rfl
      | none =>
          cases d.spatial with
          | none => rfl
          | some g =>
              dsimp only
              rw [checkGroup?_eq, Option.map_some]

theorem WellFormed.within (h : ix.WellFormed) : ix.Within := by
  refine ⟨?_, fun g hg => (h.group g hg).after_le⟩
  rw [h.declared]
  exact (List.takeWhile_sublist isDeclared).length_le

/-! ## Stored columns -/

/-- The declared columns and those of the hierarchical key make up the list of columns, and a stored
key has one direction for each of its columns: those of the columns that are no coordinates, in
order, with that of the ordinal in the place of the coordinates. -/
structure LaidOut (ix : Index) : Prop where
  columns : ∃ keys others, ix.keyColumns? = some keys ∧ ix.hierarchicalColumns? = some others ∧
    keys ++ others = ix.columns ∧ (∀ c ∈ keys, c.kind = .declared) ∧
    ∀ c ∈ others, c.kind = .hierarchical
  count : ∃ directions, ix.physicalDirections? = some directions ∧
    ix.physicalCount? = some directions.length
  plain : ix.spatial = none → ix.physicalDirections? = some (ix.columns.map Column.ascending)
  spatial : ∀ g, ix.spatial = some g → ∃ before x y behind,
    ix.columns = before ++ x :: y :: behind ∧ before.length = g.first ∧
      ix.physicalDirections? =
        some (before.map Column.ascending ++ true :: behind.map Column.ascending)

theorem WellFormed.laidOut (h : ix.WellFormed) (hcount : ix.columns.length < 2 ^ 64) :
    ix.LaidOut := by
  have hwithin := h.within
  have hdirections := physicalDirections?_eq hwithin hcount
  have hpair (g : CoordinateGroup) (hg : ix.spatial = some g) : g.first + 2 ≤ ix.columns.length :=
    (h.group g hg).after_eq ▸ (h.group g hg).after_le
  refine ⟨⟨ix.keyColumns, ix.hierarchicalColumns, slice?_from_start hwithin.declared,
    slice?_to_end hwithin.declared, List.take_append_drop _ _, ?_, ?_⟩, ?_, ?_, ?_⟩
  · rw [keyColumns, h.declared, take_takeWhile_isDeclared]
    exact fun c hc => declared_of_mem_takeWhile hc
  · rw [hierarchicalColumns, h.declared, drop_takeWhile_isDeclared]
    exact ordered_iff.mp h.inOrder.ordered
  · refine ⟨_, hdirections, ?_⟩
    rw [physicalCount?_eq hwithin, physicalCount, physicalDirections]
    cases hg : ix.spatial with
    | none => rw [List.length_map]
    | some g =>
        have hend := hpair g hg
        have hafter := (h.group g hg).after_eq
        have hplane := (h.group g hg).plane
        simp only [List.length_append, List.length_map, List.length_cons, List.length_take,
          List.length_drop]
        congr 1
        omega
  · intro hg
    rw [hdirections, physicalDirections, hg]
  · intro g hg
    obtain ⟨x, y, -, -, -, hcolumns⟩ := exists_eq_append_pair (hpair g hg)
    have hfirst : (ix.columns.take g.first).length = g.first := by
      rw [List.length_take]
      have hend := hpair g hg
      omega
    refine ⟨_, x, y, _, hcolumns, hfirst, ?_⟩
    rw [hdirections, physicalDirections, hg]
    dsimp only
    rw [(h.group g hg).after_eq]

/-- A draft is accepted exactly if its columns are in order and its group suits them, and everything
else is refused as unfit, unless the position behind two coordinates is beyond the machine words.
The checks read no column that is not there, and an accepted definition is that of the draft, with a
direction for each stored column. -/
theorem build_accepts_iff {d : Draft} (hcount : d.columns.length < 2 ^ 64) :
    d.build? = some d.build ∧
      ((∃ ix, d.build = .ok ix) ↔
        ColumnsInOrder d.columns ∧ ∀ g, d.spatial = some g → Suits d.columns g) ∧
      (d.build = .error .positionOverflow ↔
        ColumnsInOrder d.columns ∧ ∃ g, d.spatial = some g ∧ RunsOver g) ∧
      (∀ e, d.build = .error e → e = .positionOverflow ∨
        e.kind = "InvalidIndex" ∧ ∃ fault, e = .badDraft d.name fault) ∧
      ∀ ix, d.build = .ok ix → ix = d.definition ∧ ix.LaidOut := by
  refine ⟨build?_eq d, ?_, build_eq_overflow_iff hcount, fun e he => ?_, fun ix hix => ?_⟩
  · constructor
    · rintro ⟨ix, hix⟩
      obtain ⟨rfl, h⟩ := wellFormed_of_build hix
      exact ⟨h.inOrder, h.group⟩
    · rintro ⟨hin, hgroup⟩
      exact ⟨d.definition, build_definition hcount ⟨hin, rfl, hgroup⟩⟩
  · rcases build_trichotomy d with ⟨hbuild, -⟩ | ⟨⟨fault, hbuild⟩, -⟩ | ⟨hbuild, -⟩
    · rw [hbuild] at he
      cases he
    · obtain rfl := Except.error.inj (he.symm.trans hbuild)
      exact .inr ⟨rfl, fault, rfl⟩
    · exact .inl (Except.error.inj (he.symm.trans hbuild))
  · obtain ⟨rfl, h⟩ := wellFormed_of_build hix
    exact ⟨rfl, h.laidOut hcount⟩

/-- Coordinates between a descending column and one of the hierarchical key. -/
theorem build_accepts_placed_points :
    let d : Draft := ((((Draft.mk "t" "i" [] false none).descendingColumn "n" .string).column
      "x" .int).column "y" .int).hierarchicalColumn "p" .bytes |>.markSpatial 1 2
    d.columns.length < 2 ^ 64 ∧ d.build = .ok d.definition ∧ d.definition.LaidOut ∧
      d.definition.physicalDirections? = some [false, true, true] := by
  intro d
  have hcount : d.columns.length < 2 ^ 64 := by decide
  have hbuild : d.build = .ok d.definition := by decide
  obtain ⟨-, -, -, -, hlaid⟩ := build_accepts_iff hcount
  exact ⟨hcount, hbuild, (hlaid _ hbuild).2, by decide⟩

/-- Coordinates said to begin at the last position that a machine word holds. -/
theorem build_overflows_at_last_word :
    let d : Draft := ((Draft.mk "t" "i" [] false none).column "x" .int).column "y" .int
      |>.markSpatial (2 ^ 64 - 1) 2
    d.build = .error .positionOverflow ∧ ∀ fault, d.build ≠ .error (.badDraft d.name fault) := by
  intro d
  have hbuild : d.build = .error .positionOverflow := by decide
  refine ⟨hbuild, fun fault hfault => ?_⟩
  rw [hbuild] at hfault
  cases hfault

end Index
end OrderedQuery
