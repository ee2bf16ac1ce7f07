import Mathlib.Algebra.Order.Ring.Nat
import Mathlib.Data.List.Basic
import OrderedQuery.Index.Draft

/-!
# Well-formed definitions

A draft is turned into a definition exactly if its columns are in order and its coordinate group,
if it has one, suits them.  The position behind the group is computed before it is compared with
anything, so a group at the end of the machine words is not refused like other groups: the
computation of that position fails.

What an accepted draft guarantees is `Index.WellFormed`, and every definition that is well-formed is
that of a draft.
-/

namespace OrderedQuery
namespace Index

/-- A column comes from the declaration. -/
def isDeclared (c : Column) : Bool :=
  decide (c.kind = .declared)

/-- Declared columns come first, there is one of them at least, and no two columns share a name. -/
structure ColumnsInOrder (columns : List Column) : Prop where
  declares : ∃ c ∈ columns, c.kind = .declared
  ordered : columns.Pairwise fun c later => later.kind = .declared → c.kind = .declared
  distinct : (columns.map Column.name).Nodup

/-- A column may hold a coordinate at position `i` of a list of columns. -/
def IsCoordinate (columns : List Column) (i : Nat) : Prop :=
  ∃ c, columns[i]? = some c ∧ c.kind = .declared ∧ c.type = .int ∧ c.ascending = true

/-- A coordinate group consists of two neighbouring columns for coordinates. -/
structure Suits (columns : List Column) (g : CoordinateGroup) : Prop where
  plane : g.dimensions = 2
  first : IsCoordinate columns g.first
  second : IsCoordinate columns (g.first + 1)

/-- The position behind two coordinates is beyond the machine words. -/
def RunsOver (g : CoordinateGroup) : Prop :=
  g.dimensions = 2 ∧ 2 ^ 64 ≤ g.after

/-- What a definition guarantees to those who use it. -/
structure WellFormed (ix : Index) : Prop where
  inOrder : ColumnsInOrder ix.columns
  declared : ix.declared = (ix.columns.takeWhile isDeclared).length
  group : ∀ g, ix.spatial = some g → Suits ix.columns g

variable {columns : List Column} {g : CoordinateGroup} {ix : Index} {d : Draft} {i : Nat}

/-! ## Declared columns -/

theorem isDeclared_iff {c : Column} : isDeclared c = true ↔ c.kind = .declared :=
  decide_eq_true_iff

theorem declared_of_mem_takeWhile {c : Column} (h : c ∈ columns.takeWhile isDeclared) :
    c.kind = .declared :=
  isDeclared_iff.mp (List.all_eq_true.mp List.all_takeWhile c h)

theorem take_takeWhile_isDeclared (columns : List Column) :
    columns.take (columns.takeWhile isDeclared).length = columns.takeWhile isDeclared :=
  (List.prefix_iff_eq_take.mp (List.takeWhile_prefix isDeclared)).symm

theorem drop_takeWhile_isDeclared (columns : List Column) :
    columns.drop (columns.takeWhile isDeclared).length = columns.dropWhile isDeclared := by
  have hdrop : (columns.takeWhile isDeclared ++ columns.dropWhile isDeclared).drop
      (columns.takeWhile isDeclared).length = columns.dropWhile isDeclared := List.drop_left
  rwa [List.takeWhile_append_dropWhile] at hdrop

/-- No declared column is out of place if none comes after the leading ones. -/
theorem ordered_iff :
    (columns.Pairwise fun c later => later.kind = .declared → c.kind = .declared) ↔
      ∀ c ∈ columns.dropWhile isDeclared, c.kind = .hierarchical := by
  have hkind (c : Column) : c.kind = .hierarchical ↔ c.kind ≠ .declared := by
    cases c.kind <;> simp
  induction columns with
  | nil => simp
  | cons c rest ih =>
      rw [List.pairwise_cons, List.dropWhile_cons]
      by_cases hc : c.kind = .declared
      · rw [if_pos (isDeclared_iff.mpr hc)]
        exact (and_iff_right fun _ _ _ => hc).trans ih
      · rw [if_neg (mt isDeclared_iff.mp hc), List.forall_mem_cons]
        constructor
        · rintro ⟨hlater, -⟩
          refine ⟨(hkind c).mpr hc, fun later hmem => (hkind later).mpr fun hdeclared => ?_⟩
          exact hc (hlater later hmem hdeclared)
        · rintro ⟨-, hlater⟩
          have hnone (later : Column) (hmem : later ∈ rest) : later.kind ≠ .declared :=
            (hkind later).mp (hlater later hmem)
          refine ⟨fun later hmem hdeclared => absurd hdeclared (hnone later hmem), ?_⟩
          apply ih.mpr
          intro later hmem
          exact hlater later ((List.dropWhile_sublist isDeclared).mem hmem)

/-- The declared columns are those that lead the list. -/
theorem ColumnsInOrder.lt_iff (h : ColumnsInOrder columns) :
    i < (columns.takeWhile isDeclared).length ↔
      ∃ c, columns[i]? = some c ∧ c.kind = .declared := by
  have hsplit := List.takeWhile_append_dropWhile (p := isDeclared) (l := columns)
  constructor
  · intro hlt
    refine ⟨(columns.takeWhile isDeclared)[i], ?_, ?_⟩
    · conv_lhs => rw [← hsplit]
      rw [List.getElem?_append_left hlt, List.getElem?_eq_getElem hlt]
    · exact declared_of_mem_takeWhile (List.getElem_mem hlt)
  · rintro ⟨c, hc, hdeclared⟩
    by_contra hge
    rw [← hsplit, List.getElem?_append_right (Nat.not_lt.mp hge)] at hc
    have hkind := ordered_iff.mp h.ordered c (List.mem_of_getElem? hc)
    rw [hdeclared] at hkind
    cases hkind

theorem ColumnsInOrder.pos (h : ColumnsInOrder columns) :
    0 < (columns.takeWhile isDeclared).length := by
  obtain ⟨c, hmem, hdeclared⟩ := h.declares
  obtain ⟨i, hi⟩ := List.mem_iff_getElem?.mp hmem
  exact Nat.zero_lt_of_lt (h.lt_iff.mpr ⟨c, hi, hdeclared⟩)

/-! ## Coordinates -/

theorem IsCoordinate.lt_length (h : IsCoordinate columns i) : i < columns.length := by
  obtain ⟨c, hc, -⟩ := h
  exact (List.getElem?_eq_some_iff.mp hc).1

theorem Suits.after_eq (h : Suits columns g) : g.after = g.first + 2 := by
  rw [CoordinateGroup.after, h.plane]

theorem Suits.after_le (h : Suits columns g) : g.after ≤ columns.length := by
  have hlt := h.second.lt_length
  rw [h.after_eq]
  omega

theorem Suits.not_runsOver (h : Suits columns g) (hcount : columns.length < 2 ^ 64) :
    ¬RunsOver g := by
  rintro ⟨-, hover⟩
  have hafter := h.after_le
  omega

/-- The columns of the coordinates, between those in front of them and those behind. -/
theorem exists_eq_append_pair (h : g.first + 2 ≤ columns.length) :
    ∃ x y, columns[g.first]? = some x ∧ columns[g.first + 1]? = some y ∧
      (columns.drop g.first).take 2 = [x, y] ∧
      columns = columns.take g.first ++ x :: y :: columns.drop (g.first + 2) := by
  have hfirst : g.first < columns.length := by omega
  have hsecond : g.first + 1 < columns.length := by omega
  have hdrop : columns.drop g.first =
      columns[g.first] :: columns[g.first + 1] :: columns.drop (g.first + 2) := by
    rw [List.drop_eq_getElem_cons hfirst, List.drop_eq_getElem_cons hsecond]
  refine ⟨columns[g.first], columns[g.first + 1], List.getElem?_eq_getElem hfirst,
    List.getElem?_eq_getElem hsecond, by rw [hdrop]; rfl, ?_⟩
  rw [← hdrop, List.take_append_drop]

/-- What the check of a group asks for, in terms of the columns themselves. -/
theorem ColumnsInOrder.suits_iff (h : ColumnsInOrder columns) :
    Suits columns g ↔
      g.dimensions = 2 ∧ g.after ≤ (columns.takeWhile isDeclared).length ∧
        ∀ c ∈ (columns.drop g.first).take g.dimensions, c.type = .int ∧ c.ascending = true := by
  constructor
  · rintro ⟨hplane, ⟨x, hx, hkindX, hx'⟩, ⟨y, hy, hkindY, hy'⟩⟩
    have hlast := h.lt_iff.mpr ⟨y, hy, hkindY⟩
    have hwithin := (List.takeWhile_sublist isDeclared (l := columns)).length_le
    have hend : g.first + 2 ≤ columns.length := by omega
    obtain ⟨x₁, y₁, hx₁, hy₁, hpair, -⟩ := exists_eq_append_pair hend
    obtain rfl := Option.some.inj (hx.symm.trans hx₁)
    obtain rfl := Option.some.inj (hy.symm.trans hy₁)
    refine ⟨hplane, by rw [CoordinateGroup.after, hplane]; omega, ?_⟩
    rw [hplane, hpair]
    intro c hc
    rcases List.mem_pair.mp hc with rfl | rfl
    · exact hx'
    · exact hy'
  · rintro ⟨hplane, hafter, hcolumns⟩
    rw [CoordinateGroup.after, hplane] at hafter
    have hwithin := (List.takeWhile_sublist isDeclared (l := columns)).length_le
    have hend : g.first + 2 ≤ columns.length := by omega
    obtain ⟨x, y, hx, hy, hpair, -⟩ := exists_eq_append_pair hend
    rw [hplane, hpair] at hcolumns
    obtain ⟨x₁, hx₁, hkindX⟩ := h.lt_iff.mp (by omega : g.first < _)
    obtain ⟨y₁, hy₁, hkindY⟩ := h.lt_iff.mp (by omega : g.first + 1 < _)
    obtain rfl := Option.some.inj (hx.symm.trans hx₁)
    obtain rfl := Option.some.inj (hy.symm.trans hy₁)
    exact ⟨hplane, ⟨x, hx, hkindX, hcolumns x (by simp)⟩, ⟨y, hy, hkindY, hcolumns y (by simp)⟩⟩

/-! ## The checks of a draft -/

theorem duplicate?_go_eq_none_iff {seen : List String} :
    Draft.duplicate?.go seen columns = none ↔
      (columns.map Column.name).Nodup ∧ ∀ c ∈ columns, c.name ∉ seen := by
  induction columns generalizing seen with
  | nil => simp [Draft.duplicate?.go]
  | cons c rest ih =>
      rw [Draft.duplicate?.go, List.map_cons, List.nodup_cons, List.forall_mem_cons]
      by_cases hseen : c.name ∈ seen
      · rw [if_pos hseen]
        exact iff_of_false nofun fun h => h.2.1 hseen
      · rw [if_neg hseen, ih]
        constructor
        · rintro ⟨hnodup, hrest⟩
          refine ⟨⟨fun hmem => ?_, hnodup⟩, hseen, fun c' hc' hmem => ?_⟩
          · obtain ⟨c', hc', hname⟩ := List.mem_map.mp hmem
            exact hrest c' hc' (hname ▸ List.mem_cons_self)
          · exact hrest c' hc' (List.mem_cons_of_mem _ hmem)
        · rintro ⟨⟨hname, hnodup⟩, -, hrest⟩
          refine ⟨hnodup, fun c' hc' hmem => ?_⟩
          rcases List.mem_cons.mp hmem with heq | hmem
          · exact hname (heq ▸ List.mem_map_of_mem hc')
          · exact hrest c' hc' hmem

theorem duplicate?_eq_none_iff :
    d.duplicate? = none ↔ (d.columns.map Column.name).Nodup := by
  rw [Draft.duplicate?, duplicate?_go_eq_none_iff]
  exact and_iff_left fun _ _ => List.not_mem_nil

/-- A group is refused as unfit for the draft, or the position behind it cannot be computed. -/
theorem checkGroup_cases (h : ColumnsInOrder d.columns) (g : CoordinateGroup) :
    (d.checkGroup g = .ok () ∧ Suits d.columns g) ∨
      ((∃ fault, d.checkGroup g = .error (.badDraft d.name fault)) ∧ ¬Suits d.columns g ∧
        ¬RunsOver g) ∨
      (d.checkGroup g = .error .positionOverflow ∧ RunsOver g) := by
  have hsuits := h.suits_iff (g := g)
  have hcount : d.declaredCount = (d.columns.takeWhile isDeclared).length := rfl
  unfold Draft.checkGroup
  split
  · rename_i hplane
    exact .inr (.inl ⟨⟨_, rfl⟩, fun hs => hplane hs.plane, fun hs => hplane hs.1⟩)
  · rename_i hplane
    rw [not_not] at hplane
    split
    · rename_i hlarge
      exact .inr (.inr ⟨rfl, hplane, hlarge⟩)
    · rename_i hsmall
      have hfits : ¬RunsOver g := fun hs => hsmall hs.2
      split
      · rename_i hbeyond
        refine .inr (.inl ⟨⟨_, rfl⟩, fun hs => ?_, hfits⟩)
        have := (hsuits.mp hs).2.1
        omega
      · rename_i hwithin
        split
        · rename_i c hfound
          refine .inr (.inl ⟨⟨_, rfl⟩, fun hs => ?_, hfits⟩)
          have hbad := List.find?_some hfound
          have hgood := (hsuits.mp hs).2.2 c (List.mem_of_find?_eq_some hfound)
          simp [hgood] at hbad
        · rename_i hfound
          refine .inl ⟨rfl, hsuits.mpr ⟨hplane, Nat.not_lt.mp hwithin, fun c hc => ?_⟩⟩
          have hgood := List.find?_eq_none.mp hfound c hc
          simpa using hgood

/-- The definition that a draft stands for. -/
def Draft.definition (d : Draft) : Index :=
  ⟨d.table, d.name, d.columns, d.declaredCount, d.unique, d.spatial⟩

/-- Columns out of order are refused, and otherwise the group decides. -/
theorem build_cases (d : Draft) :
    ((∃ fault, d.build = .error (.badDraft d.name fault)) ∧ ¬ColumnsInOrder d.columns) ∨
      ColumnsInOrder d.columns ∧
        d.build = match d.spatial with
          | none => .ok d.definition
          | some g => (d.checkGroup g).map fun _ => d.definition := by
  have hdrop : d.columns.drop d.declaredCount = d.columns.dropWhile isDeclared :=
    drop_takeWhile_isDeclared d.columns
  unfold Draft.build
  dsimp only
  split
  · rename_i hzero
    exact .inl ⟨⟨_, rfl⟩, fun h => (Nat.ne_of_gt h.pos) hzero⟩
  · rename_i hsome
    split
    · rename_i hlate
      refine .inl ⟨⟨_, rfl⟩, fun h => ?_⟩
      obtain ⟨c, hmem, hdeclared⟩ := List.any_eq_true.mp hlate
      rw [hdrop] at hmem
      have hkind := ordered_iff.mp h.ordered c hmem
      rw [decide_eq_true_iff.mp hdeclared] at hkind
      cases hkind
    · rename_i hleading
      split
      · rename_i name hduplicate
        refine .inl ⟨⟨_, rfl⟩, fun h => ?_⟩
        rw [duplicate?_eq_none_iff.mpr h.distinct] at hduplicate
        cases hduplicate
      · rename_i hdistinct
        refine .inr ⟨⟨?_, ?_, duplicate?_eq_none_iff.mp hdistinct⟩, rfl⟩
        · obtain ⟨c, hc⟩ := List.exists_mem_of_length_pos (Nat.pos_of_ne_zero hsome)
          exact ⟨c, (List.takeWhile_sublist _).mem hc, declared_of_mem_takeWhile hc⟩
        · apply ordered_iff.mpr
          intro c hc
          rw [← hdrop] at hc
          have hnot : ¬c.kind = .declared := fun hdeclared =>
            hleading (List.any_eq_true.mpr ⟨c, hc, decide_eq_true hdeclared⟩)
          cases hkind : c.kind with
          | declared => exact absurd hkind hnot
          | hierarchical => rfl

/-- A draft is a definition, or unfit, or its group runs over although its columns are in order. -/
theorem build_trichotomy (d : Draft) :
    (d.build = .ok d.definition ∧ d.definition.WellFormed) ∨
      ((∃ fault, d.build = .error (.badDraft d.name fault)) ∧ ¬d.definition.WellFormed ∧
        ¬(ColumnsInOrder d.columns ∧ ∃ g, d.spatial = some g ∧ RunsOver g)) ∨
      (d.build = .error .positionOverflow ∧ ColumnsInOrder d.columns ∧
        ∃ g, d.spatial = some g ∧ RunsOver g) := by
  rcases build_cases d with ⟨hfault, hout⟩ | ⟨hin, hbuild⟩
  · exact .inr (.inl ⟨hfault, fun h => hout h.inOrder, fun h => hout h.1⟩)
  · cases hspatial : d.spatial with
    | none =>
        rw [hspatial] at hbuild
        refine .inl ⟨hbuild, hin, rfl, fun g hg => ?_⟩
        rw [Draft.definition, hspatial] at hg
        cases hg
    | some g =>
        rw [hspatial] at hbuild
        dsimp only at hbuild
        rcases checkGroup_cases hin g with ⟨hcheck, hsuits⟩ | ⟨⟨fault, hcheck⟩, hunfit, hfits⟩ |
          ⟨hcheck, hover⟩
        · rw [hcheck] at hbuild
          refine .inl ⟨hbuild, hin, rfl, fun g' hg' => ?_⟩
          obtain rfl := Option.some.inj (hspatial.symm.trans hg')
          exact hsuits
        · rw [hcheck] at hbuild
          refine .inr (.inl ⟨⟨fault, hbuild⟩, fun h => hunfit (h.group g hspatial), ?_⟩)
          rintro ⟨-, g', hg', hover⟩
          exact hfits (Option.some.inj hg' ▸ hover)
        · rw [hcheck] at hbuild
          exact .inr (.inr ⟨hbuild, hin, g, rfl, hover⟩)

/-! ## Definitions of drafts -/

theorem wellFormed_of_build (h : d.build = .ok ix) : ix = d.definition ∧ ix.WellFormed := by
  rcases build_trichotomy d with ⟨hbuild, hformed⟩ | ⟨⟨fault, hbuild⟩, -⟩ | ⟨hbuild, -⟩
  · obtain rfl := Except.ok.inj (h.symm.trans hbuild)
    exact ⟨rfl, hformed⟩
  · exact absurd (h.symm.trans hbuild) nofun
  · exact absurd (h.symm.trans hbuild) nofun

theorem build_definition (hcount : d.columns.length < 2 ^ 64) (h : d.definition.WellFormed) :
    d.build = .ok d.definition := by
  rcases build_trichotomy d with ⟨hbuild, -⟩ | ⟨-, hunfit, -⟩ | ⟨-, -, g, hg, hover⟩
  · exact hbuild
  · exact absurd h hunfit
  · exact absurd hover ((h.group g hg).not_runsOver hcount)

/-- The draft with the fields of a definition. -/
def draft (ix : Index) : Draft :=
  ⟨ix.table, ix.name, ix.columns, ix.unique, ix.spatial⟩

/-- Definitions that are well-formed pass the checks of a draft, and come out as they are. -/
theorem wellFormed_iff_build_draft (hcount : ix.columns.length < 2 ^ 64) :
    ix.WellFormed ↔ ix.draft.build = .ok ix := by
  constructor
  · intro h
    have hdeclared : ix.draft.declaredCount = ix.declared := h.declared.symm
    have hdefinition : ix.draft.definition = ix := by
      rw [Draft.definition, hdeclared]
      rfl
    have hbuild := build_definition (d := ix.draft) hcount (hdefinition.symm ▸ h)
    rwa [hdefinition] at hbuild
  · exact fun h => (wellFormed_of_build h).2

/-- The position behind the coordinates is computed once the columns are known to be in order. -/
theorem build_eq_overflow_iff (hcount : d.columns.length < 2 ^ 64) :
    d.build = .error .positionOverflow ↔
      ColumnsInOrder d.columns ∧ ∃ g, d.spatial = some g ∧ RunsOver g := by
  rcases build_trichotomy d with ⟨hbuild, h⟩ | ⟨⟨fault, hbuild⟩, -, hfits⟩ | ⟨hbuild, hover⟩
  · rw [hbuild]
    apply iff_of_false nofun
    rintro ⟨-, g, hg, hover⟩
    exact (h.group g hg).not_runsOver hcount hover
  · rw [hbuild]
    exact iff_of_false nofun hfits
  · exact iff_of_true hbuild hover

end Index
end OrderedQuery
