import OrderedQuery.Proofs.Index.AcceptedDrafts
import OrderedQuery.Proofs.Index.Catalog

/-!
# Stored definitions

Catalog bytes are read field by field, and nothing relates the fields of a definition to each other.
All that reading ensures is that numbers and lengths fit in machine words: every definition of this
kind is read from some bytes.  Those of definitions that drafts stand for give well-formed
definitions back, and a definition that was read serves its users safely exactly as far as its
numbers lie within its list of columns.
-/

namespace OrderedQuery

namespace Bytes

theorem toNatLittle_lt (b : Bytes) : toNatLittle b < 256 ^ b.length := by
  induction b with
  | nil => exact Nat.one_pos
  | cons byte rest ih =>
      have hbyte := byte.toNat_lt
      rw [toNatLittle, List.length_cons, Nat.pow_succ]
      omega

end Bytes

namespace Catalog

variable {b rest : Bytes}

theorem readFixed_lt {width n : Nat} (h : readFixed width b = some (n, rest)) :
    n < 256 ^ width := by
  unfold readFixed at h
  split at h
  · cases h
  · rename_i hlong
    have hlength : (b.take width).length = width := by
      rw [List.length_take]
      omega
    cases h
    have hlt := Bytes.toNatLittle_lt (b.take width)
    rwa [hlength] at hlt

/-- A number of at most eight bytes fits in a machine word. -/
theorem readNat_lt {n : Nat} (h : readNat 8 b = some (n, rest)) : n < 2 ^ 64 := by
  cases b with
  | nil => cases h
  | cons byte more =>
      rw [readNat] at h
      by_cases hone : byte.toNat < 251
      · rw [if_pos hone] at h
        cases h
        omega
      · rw [if_neg hone, Option.ite_none_right_eq_some] at h
        obtain ⟨hwidth, h⟩ := h
        have hpow := Nat.pow_le_pow_right (n := 256) (by omega) hwidth.2
        exact Nat.lt_of_lt_of_le (readFixed_lt h) hpow

theorem readText_length {s : String} (h : readText b = some (s, rest)) :
    (utf8 s).length < 2 ^ 64 := by
  obtain ⟨⟨length, more⟩, hlength, h⟩ := Option.bind_eq_some_iff.mp h
  dsimp only at h
  split at h
  · cases h
  · split at h
    · rename_i hdecode
      cases h
      rw [Utf8.utf8_of_decode hdecode]
      exact Nat.lt_of_le_of_lt (List.length_take_le _ _) (readNat_lt hlength)
    · cases h

theorem readColumn_name {c : Column} (h : readColumn b = some (c, rest)) :
    (utf8 c.name).length < 2 ^ 64 := by
  obtain ⟨⟨name, b₁⟩, hname, h⟩ := Option.bind_eq_some_iff.mp h
  obtain ⟨⟨type, b₂⟩, -, h⟩ := Option.bind_eq_some_iff.mp h
  obtain ⟨⟨ascending, b₃⟩, -, h⟩ := Option.bind_eq_some_iff.mp h
  obtain ⟨⟨kind, b₄⟩, -, h⟩ := Option.bind_eq_some_iff.mp h
  cases h
  exact readText_length hname

/-- As many values are read as asked for, and each of them by the reader of one. -/
theorem readMany_spec {α : Type} {read : Reader α} {n : Nat} {xs : List α}
    (h : readMany read n b = some (xs, rest)) :
    xs.length = n ∧ ∀ x ∈ xs, ∃ b rest, read b = some (x, rest) := by
  induction n generalizing b xs with
  | zero =>
      cases h
      exact ⟨rfl, nofun⟩
  | succ n ih =>
      obtain ⟨⟨x, b₁⟩, hx, h⟩ := Option.bind_eq_some_iff.mp h
      obtain ⟨⟨xs', b₂⟩, hxs, h⟩ := Option.bind_eq_some_iff.mp h
      cases h
      obtain ⟨hlength, hread⟩ := ih hxs
      refine ⟨by rw [List.length_cons, hlength], fun y hy => ?_⟩
      rcases List.mem_cons.mp hy with rfl | hy
      · exact ⟨_, _, hx⟩
      · exact hread y hy

theorem readGroup_lt {g : CoordinateGroup} (h : readGroup b = some (some g, rest)) :
    g.first < 2 ^ 64 ∧ g.dimensions < 2 ^ 64 := by
  cases b with
  | nil => cases h
  | cons byte more =>
      rw [readGroup] at h
      split at h
      · cases h
      · split at h
        · obtain ⟨⟨first, b₁⟩, hfirst, h⟩ := Option.bind_eq_some_iff.mp h
          obtain ⟨⟨dimensions, b₂⟩, hdimensions, h⟩ := Option.bind_eq_some_iff.mp h
          cases h
          exact ⟨readNat_lt hfirst, readNat_lt hdimensions⟩
        · cases h

end Catalog

namespace Index

variable {b : Bytes} {ix : Index}

theorem fits_of_ofBytes (h : ofBytes b = .ok ix) : ix.Fits := by
  have hread : ∃ rest, read b = some (ix, rest) := by
    unfold ofBytes at h
    split at h
    · rename_i rest hread
      exact ⟨rest, Except.ok.inj h ▸ hread⟩
    · cases h
  obtain ⟨rest, h⟩ := hread
  obtain ⟨⟨table, b₁⟩, htable, h⟩ := Option.bind_eq_some_iff.mp h
  obtain ⟨⟨name, b₂⟩, hname, h⟩ := Option.bind_eq_some_iff.mp h
  obtain ⟨⟨count, b₃⟩, hcount, h⟩ := Option.bind_eq_some_iff.mp h
  obtain ⟨⟨columns, b₄⟩, hcolumns, h⟩ := Option.bind_eq_some_iff.mp h
  obtain ⟨⟨declared, b₅⟩, hdeclared, h⟩ := Option.bind_eq_some_iff.mp h
  obtain ⟨⟨unique, b₆⟩, -, h⟩ := Option.bind_eq_some_iff.mp h
  obtain ⟨⟨spatial, b₇⟩, hspatial, h⟩ := Option.bind_eq_some_iff.mp h
  cases h
  obtain ⟨hlength, hmember⟩ := Catalog.readMany_spec hcolumns
  refine ⟨Catalog.readText_length htable, Catalog.readText_length hname, ?_, ?_,
    Catalog.readNat_lt hdeclared, ?_⟩
  · exact hlength.symm ▸ Catalog.readNat_lt hcount
  · intro c hc
    obtain ⟨_, _, hread⟩ := hmember c hc
    exact Catalog.readColumn_name hread
  · rintro g rfl
    exact Catalog.readGroup_lt hspatial

/-- Any numbers and texts of a size that machine words can tell make up a stored definition. -/
theorem exists_ofBytes_iff : (∃ b, ofBytes b = .ok ix) ↔ ix.Fits := by
  constructor
  · rintro ⟨b, h⟩
    exact fits_of_ofBytes h
  · intro h
    have hread := ofBytes_toBytes_append h []
    exact ⟨_, hread⟩

theorem WellFormed.inBounds (h : ix.WellFormed) (hcount : ix.columns.length < 2 ^ 64) :
    ix.InBounds :=
  (inBounds_iff hcount).mpr h.within

/-- A definition read from catalog bytes is well-formed exactly if it passes the checks of a draft,
which reading does not make: every definition whose numbers fit in machine words is read from some
bytes, and from bytes that begin with those of a definition of a draft this one.  Users of a
well-formed definition stay within its bounds, and those of any other that was read do so exactly if
its numbers lie within its list of columns. -/
theorem stored_wellFormed_iff (h : ofBytes b = .ok ix) :
    (ix.WellFormed ↔ ix.draft.build = .ok ix) ∧
      (ix.WellFormed → ix.InBounds) ∧
      (ix.InBounds ↔ ix.Within) ∧
      (∀ d built, Draft.build d = .ok built → built.Fits → built.toBytes <+: b →
        ix = built ∧ ix.WellFormed) ∧
      ∀ other, (∃ b', ofBytes b' = .ok other) ↔ other.Fits := by
  have hcount := (fits_of_ofBytes h).count
  refine ⟨wellFormed_iff_build_draft hcount, fun hformed => hformed.inBounds hcount,
    inBounds_iff hcount, ?_, fun _ => exists_ofBytes_iff⟩
  rintro d built hbuilt hfits ⟨rest, rfl⟩
  rw [ofBytes_toBytes_append hfits] at h
  obtain rfl := Except.ok.inj h
  exact ⟨rfl, (wellFormed_of_build hbuilt).2⟩

/-- The bytes of an index of points, and one byte that belongs to something else. -/
theorem stored_wellFormed_of_points :
    let b : Bytes := [1, 116, 1, 105, 2, 1, 120, 1, 1, 0, 1, 121, 1, 1, 0, 2, 0, 1, 0, 2, 7]
    ∃ ix, ofBytes b = .ok ix ∧ ix.draft.build = .ok ix ∧ ix.WellFormed ∧ ix.InBounds := by
  intro b
  let ix : Index :=
    ⟨"t", "i", [⟨"x", .int, true, .declared⟩, ⟨"y", .int, true, .declared⟩], 2, false, some ⟨0, 2⟩⟩
  have h : ofBytes b = .ok ix := by decide +kernel
  have hbuild : ix.draft.build = .ok ix := by decide
  obtain ⟨hdraft, hsafe, -⟩ := stored_wellFormed_iff h
  have hformed := hdraft.mpr hbuild
  exact ⟨ix, h, hbuild, hformed, hsafe hformed⟩

/-- Bytes that tell of no column are read all the same, also if they count one as declared, which is
then beyond the list of columns. -/
theorem ofBytes_returns_unfit :
    (∃ ix, ofBytes [0, 0, 0, 0, 0, 0] = .ok ix ∧ ¬ix.WellFormed) ∧
      ∃ ix, ofBytes [0, 0, 0, 1, 0, 0] = .ok ix ∧ ¬ix.WellFormed ∧ ix.keyColumns? = none := by
  have hnone (ix : Index) (hcolumns : ix.columns = []) : ¬ix.WellFormed := by
    intro h
    obtain ⟨c, hc, -⟩ := h.inOrder.declares
    rw [hcolumns] at hc
    cases hc
  let empty : Index := ⟨"", "", [], 0, false, none⟩
  exact ⟨⟨empty, by decide +kernel, hnone empty rfl⟩,
    ⟨{ empty with declared := 1 }, by decide +kernel, hnone _ rfl, by decide⟩⟩

end Index
end OrderedQuery
