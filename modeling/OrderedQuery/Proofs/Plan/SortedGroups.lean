import OrderedQuery.Proofs.Cursor.Groups
import OrderedQuery.Proofs.Cursor.StoredRows
import OrderedQuery.Proofs.Key.Leading

/-!
# Groups of sorted rows

Only neighbours make a group, so a key can have several groups.  It has one if the rows are sorted
in such a way that whatever stands between two rows with one key has this key as well.  Then a part
of the rows that is chosen by their keys consists of whole groups.
-/

namespace OrderedQuery
namespace Grouping

variable {g : Grouping} {rows group : List Row} {a b c row : Row}

theorem sameKey_symm {x y : List Value} (h : sameKey x y) : sameKey y x :=
  sameKey_iff.mpr (sameKey_iff.mp h).symm

theorem sameKey_trans {x y z : List Value} (h : sameKey x y) (h' : sameKey y z) : sameKey x z :=
  sameKey_iff.mpr ((sameKey_iff.mp h).trans (sameKey_iff.mp h'))

/-- All rows of a group have one key. -/
theorem sameKey_of_mem_groups (h : group ∈ g.groups rows) (ha : a ∈ group) (hb : b ∈ group) :
    sameKey (g.key a) (g.key b) := by
  have : IsTrans Row fun x y => sameKey (g.key x) (g.key y) = true :=
    ⟨fun _ _ _ => sameKey_trans⟩
  have hpairs := List.isChain_iff_pairwise.mp (List.isChain_of_mem_splitBy h)
  have hflip := hpairs.imp fun {x y} h => sameKey_symm (x := g.key x) (y := g.key y) h
  exact hpairs.forall_of_forall_of_flip (fun _ _ => sameKey_iff.mpr rfl) hflip ha hb

theorem sameKey_keyOf (h : group ∈ g.groups rows) (ha : a ∈ group) :
    sameKey (g.keyOf group) (g.key a) := by
  cases group with
  | nil => cases ha
  | cons b group => exact sameKey_of_mem_groups h List.mem_cons_self ha

theorem exists_group_of_mem (h : row ∈ rows) : ∃ group ∈ g.groups rows, row ∈ group := by
  rw [← List.flatten_splitBy (fun a b => sameKey (g.key a) (g.key b)) rows] at h
  exact List.mem_flatten.mp h

theorem mem_of_mem_groups (h : group ∈ g.groups rows) (hrow : row ∈ group) : row ∈ rows := by
  rw [← List.flatten_splitBy (fun a b => sameKey (g.key a) (g.key b)) rows]
  exact List.mem_flatten.mpr ⟨group, h, hrow⟩

/-- No row of one group has the key of a row of another one. -/
def Gathers (g : Grouping) (rows : List Row) : Prop :=
  (g.groups rows).Pairwise fun group other =>
    ∀ a ∈ group, ∀ b ∈ other, ¬sameKey (g.key a) (g.key b)

/-- Sorted rows are gathered if what stands between two rows with one key has this key. -/
theorem gathers_of_pairwise {R : Row → Row → Prop} (hsorted : rows.Pairwise R)
    (hbetween : ∀ {a b c}, R a b → R b c → sameKey (g.key a) (g.key c) →
      sameKey (g.key a) (g.key b)) : g.Gathers rows := by
  rw [← List.flatten_splitBy (fun a b => sameKey (g.key a) (g.key b)) rows,
    List.pairwise_flatten] at hsorted
  obtain ⟨hwithin, hacross⟩ := hsorted
  have hruns : ∀ group ∈ g.groups rows, ∀ a ∈ group, ∀ b ∈ group, sameKey (g.key a) (g.key b) :=
    fun group h a ha b hb => sameKey_of_mem_groups h ha hb
  have hends := List.isChain_getLast_head_splitBy (fun a b => sameKey (g.key a) (g.key b)) rows
  unfold Gathers
  change (g.groups rows).IsChain _ at hends
  change ∀ group ∈ g.groups rows, _ at hwithin
  change (g.groups rows).Pairwise _ at hacross
  generalize g.groups rows = groups at hwithin hacross hruns hends ⊢
  induction groups with
  | nil => exact .nil
  | cons first rest ih =>
      rw [List.pairwise_cons] at hacross ⊢
      rw [List.forall_mem_cons] at hwithin hruns
      refine ⟨?_, ih hwithin.2 hacross.2 hruns.2 hends.tail⟩
      intro other hother a ha b hb hsame
      cases rest with
      | nil => cases hother
      | cons second rest =>
          obtain ⟨⟨hfirst, hsecond, hdiffer⟩, -⟩ := List.isChain_cons_cons.mp hends
          -- the first row of the second group stands between the two, or is the later one
          have hlast := List.getLast_mem hfirst
          have hhead := List.head_mem hsecond
          have hlater : sameKey (g.key (first.getLast hfirst)) (g.key b) :=
            sameKey_trans (hruns.1 _ hlast a ha) hsame
          have hR := hacross.1 second List.mem_cons_self _ hlast _ hhead
          have hcontra : sameKey (g.key (first.getLast hfirst)) (g.key (second.head hsecond)) := by
            rcases List.mem_cons.mp hother with rfl | hother
            · exact sameKey_trans hlater
                ((List.forall_mem_cons.mp hruns.2).1 b hb _ hhead)
            · exact hbetween hR ((List.pairwise_cons.mp hacross.2).1 other hother _ hhead b hb)
                hlater
          rw [hdiffer] at hcontra
          cases hcontra

/-- A part of gathered rows that is chosen by their keys consists of whole groups. -/
theorem Gathers.groups_filter (h : g.Gathers rows) {keeps : Row → Bool}
    (hkeeps : ∀ a ∈ rows, ∀ b ∈ rows, sameKey (g.key a) (g.key b) → keeps a = keeps b) :
    g.groups (rows.filter keeps) = (g.groups rows).filter fun group => group.any keeps := by
  have hgroup : ∀ group ∈ g.groups rows,
      group.filter keeps = if group.any keeps then group else [] := by
    intro group hmem
    split
    · rename_i hany
      obtain ⟨a, ha, hkept⟩ := List.any_eq_true.mp hany
      refine List.filter_eq_self.mpr ?_
      intro b hb
      rw [← hkept]
      exact hkeeps b (mem_of_mem_groups hmem hb) a (mem_of_mem_groups hmem ha)
        (sameKey_of_mem_groups hmem hb ha)
    · rename_i hnone
      refine List.filter_eq_nil_iff.mpr ?_
      intro b hb hkept
      exact hnone (List.any_eq_true.mpr ⟨b, hb, hkept⟩)
  have hflatten : rows.filter keeps =
      ((g.groups rows).filter fun group => group.any keeps).flatten := by
    conv_lhs => rw [← List.flatten_splitBy (fun a b => sameKey (g.key a) (g.key b)) rows]
    change (g.groups rows).flatten.filter keeps = _
    generalize g.groups rows = groups at hgroup
    induction groups with
    | nil => rfl
    | cons first rest ih =>
        obtain ⟨hfirst, hrest⟩ := List.forall_mem_cons.mp hgroup
        rw [List.flatten_cons, List.filter_append, hfirst, ih hrest, List.filter_cons]
        split
        · rw [List.flatten_cons]
        · rw [List.nil_append]
  rw [groups, hflatten]
  refine List.splitBy_flatten ?_ ?_ ?_
  · intro hnil
    exact List.nil_notMem_splitBy _ _ (List.mem_of_mem_filter hnil)
  · intro group hmem
    exact List.isChain_of_mem_splitBy (List.mem_of_mem_filter hmem)
  · refine List.Pairwise.isChain ((h.filter _).imp_of_mem ?_)
    intro group other hmem hmem' hdiffer
    have hne := List.ne_nil_of_mem_splitBy (List.mem_of_mem_filter hmem)
    have hne' := List.ne_nil_of_mem_splitBy (List.mem_of_mem_filter hmem')
    exact ⟨hne, hne', Bool.eq_false_iff.mpr
      (hdiffer _ (List.getLast_mem hne) _ (List.head_mem hne'))⟩

/-- The key of a row is the key of one group. -/
theorem Gathers.countP_groups (h : g.Gathers rows) (hrow : row ∈ rows) :
    ((g.groups rows).countP fun group => sameKey (g.keyOf group) (g.key row)) = 1 := by
  obtain ⟨group, hgroup, hmem⟩ := exists_group_of_mem (g := g) hrow
  obtain ⟨before, after, hgroups⟩ := List.append_of_mem hgroup
  have hnonempty : ∀ other ∈ g.groups rows, other ≠ [] :=
    fun other hother => List.ne_nil_of_mem_splitBy hother
  have hkey := sameKey_keyOf hgroup hmem
  rw [Gathers] at h
  rw [hgroups] at h hnonempty ⊢
  rw [List.pairwise_append, List.pairwise_cons] at h
  obtain ⟨-, ⟨hafter, -⟩, hbefore⟩ := h
  have hnone : before.countP (fun group => sameKey (g.keyOf group) (g.key row)) = 0 := by
    refine List.countP_eq_zero.mpr ?_
    intro other hother
    cases other with
    | nil => exact absurd rfl (hnonempty [] (List.mem_append_left _ hother))
    | cons a other =>
        exact hbefore _ hother group List.mem_cons_self a List.mem_cons_self row hmem
  have hnone' : after.countP (fun group => sameKey (g.keyOf group) (g.key row)) = 0 := by
    refine List.countP_eq_zero.mpr ?_
    intro other hother hsame
    cases other with
    | nil =>
        exact hnonempty [] (List.mem_append_right _ (List.mem_cons_of_mem _ hother)) rfl
    | cons a other =>
        exact hafter _ hother row hmem a List.mem_cons_self (sameKey_symm hsame)
  rw [List.countP_append, List.countP_cons, hnone, hnone', if_pos hkey]

end Grouping

/-! ## Rows in the order of an index -/

theorem Ordering.eq_eq_of_then_ne {o x y y' : Ordering} (ho : o ≠ .eq) (h : x.then y ≠ o)
    (h' : x.swap.then y' ≠ o) : x = .eq := by
  cases x with
  | eq => rfl
  | lt => cases o <;> simp at ho h h'
  | gt => cases o <;> simp at ho h h'

theorem Value.ascending_eq_of_directedCompare {descending : Bool} {v w : Value}
    (h : v.directedCompare descending w = .eq) : Key.ascending v = Key.ascending w := by
  have htotal : v.totalCompare w = .eq := by
    cases descending with
    | false => exact h
    | true => exact Ordering.swap_eq_eq.mp h
  rw [totalCompare_eq_compare_ascending] at htotal
  exact Std.LawfulEqOrd.compare_eq_iff_eq.mp htotal

/-- What comes after a value comes before every value that is encoded like it. -/
theorem Value.directedCompare_of_ascending_eq {descending : Bool} {u v w : Value}
    (h : Key.ascending u = Key.ascending w) :
    v.directedCompare descending w = (u.directedCompare descending v).swap := by
  have hswap : v.totalCompare w = (u.totalCompare v).swap := by
    rw [totalCompare_eq_compare_ascending, ← h, ← totalCompare_eq_compare_ascending]
    exact Std.OrientedCmp.eq_swap
  rw [directedCompare, directedCompare, hswap]
  cases descending <;> rfl

namespace Key

/-- What is neither before nor after columns that are the same is the same as well. -/
theorem sameKey_of_compareColumns {o : Ordering} (ho : o ≠ .eq) {directions : List Bool}
    {us vs ws : List Value} (hlength : us.length = vs.length) (hlength' : vs.length = ws.length)
    (hdirections : vs.length ≤ directions.length) (h : compareColumns directions us vs ≠ o)
    (h' : compareColumns directions vs ws ≠ o) (hsame : Grouping.sameKey us ws) :
    Grouping.sameKey us vs := by
  rw [Grouping.sameKey_iff] at hsame ⊢
  induction directions generalizing us vs ws with
  | nil =>
      obtain rfl : vs = [] := List.eq_nil_of_length_eq_zero (Nat.le_zero.mp hdirections)
      obtain rfl : us = [] := List.eq_nil_of_length_eq_zero hlength
      rfl
  | cons d directions ih =>
      cases us with
      | nil =>
          obtain rfl : vs = [] := List.eq_nil_of_length_eq_zero hlength.symm
          rfl
      | cons u us =>
          cases vs with
          | nil => cases hlength
          | cons v vs =>
              cases ws with
              | nil => cases hlength'
              | cons w ws =>
                  obtain ⟨hfirst, hrest⟩ := List.cons.inj hsame
                  rw [compareColumns] at h h'
                  rw [Value.directedCompare_of_ascending_eq hfirst] at h'
                  have heq := Ordering.eq_eq_of_then_ne ho h h'
                  rw [heq] at h h'
                  rw [List.map_cons, List.map_cons, Value.ascending_eq_of_directedCompare heq,
                    ih (Nat.succ.inj hlength) (Nat.succ.inj hlength')
                      (Nat.le_of_succ_le_succ hdirections) h h' hrest]

end Key

namespace IndexScan

variable {s : IndexScan}

/-- The first columns of rows in the order of an index do not come in the reverse order. -/
theorem exists_leading_ne (hspatial : s.index.spatial = none) (n : Nat) :
    ∃ o : Ordering, o ≠ .eq ∧ ∀ us vs : List Value, s.Precedes us vs →
      Key.compareColumns s.index.descents (us.take n) (vs.take n) ≠ o := by
  have hthen (us vs : List Value) : s.index.compareRows us vs =
      (Key.compareColumns s.index.descents (us.take n) (vs.take n)).then
        (Key.compareColumns (s.index.descents.drop n) (us.drop n) (vs.drop n)) := by
    rw [Index.compareRows, Index.collapse_of_none hspatial, Index.collapse_of_none hspatial,
      Key.compareColumns_take n]
  unfold Precedes
  cases s.direction with
  | forward =>
      refine ⟨.gt, by decide, ?_⟩
      intro us vs h hreverse
      rw [hthen, hreverse] at h
      cases h
  | backward =>
      refine ⟨.lt, by decide, ?_⟩
      intro us vs h hreverse
      rw [hthen, hreverse] at h
      cases h

/-- Rows of an index without coordinates, in the order of a scan. -/
structure Arranges (s : IndexScan) (rows : List Row) : Prop where
  spatial : s.index.spatial = none
  length : ∀ row ∈ rows, row.values.length = s.index.columns.length
  sorted : rows.Pairwise fun x y => s.Precedes x.values y.values

theorem Arranges.filter {rows : List Row} (h : s.Arranges rows) (keeps : Row → Bool) :
    s.Arranges (rows.filter keeps) where
  spatial := h.spatial
  length row hrow := h.length row (List.mem_of_mem_filter hrow)
  sorted := h.sorted.filter keeps

/-- Such rows are gathered by their first columns. -/
theorem Arranges.gathers {rows : List Row} (h : s.Arranges rows) (g : Grouping) :
    g.Gathers rows := by
  obtain ⟨o, ho, hleading⟩ := exists_leading_ne h.spatial g.fields
  have hdescents : s.index.descents.length = s.index.columns.length := by
    rw [Index.descents_of_spatial_eq_none h.spatial, List.length_map]
  have hkey (row : Row) (h : row.values.length = s.index.columns.length) :
      (g.key row).length = min g.fields s.index.columns.length := by
    rw [Grouping.key, List.length_take, h]
  have hrows : rows.Pairwise fun x y => s.Precedes x.values y.values ∧
      x.values.length = s.index.columns.length ∧ y.values.length = s.index.columns.length :=
    h.sorted.imp_of_mem fun hx hy hxy => ⟨hxy, h.length _ hx, h.length _ hy⟩
  refine Grouping.gathers_of_pairwise hrows ?_
  rintro x y z ⟨hxy, hx, hy⟩ ⟨hyz, -, hz⟩ hsame
  refine Key.sameKey_of_compareColumns ho ((hkey x hx).trans (hkey y hy).symm)
    ((hkey y hy).trans (hkey z hz).symm) ?_ (hleading _ _ hxy) (hleading _ _ hyz) hsame
  rw [hkey y hy, hdescents]
  exact Nat.min_le_right _ _

end IndexScan
end OrderedQuery
