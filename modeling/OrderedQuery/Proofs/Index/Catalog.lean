import OrderedQuery.Index.Catalog
import OrderedQuery.Proofs.Key.RoundTrip

/-!
# Definitions in a catalog

Every part of a definition is read back from its catalog bytes, whatever follows them, at every
width of a number.  So is a definition, and the bytes of one never begin those of another.
-/

namespace OrderedQuery

namespace Bytes

theorem length_littleEndian (width n : Nat) : (littleEndian width n).length = width := by
  induction width generalizing n with
  | zero => rfl
  | succ width ih => rw [littleEndian, List.length_cons, ih]

theorem toNatLittle_littleEndian {width n : Nat} (hn : n < 256 ^ width) :
    toNatLittle (littleEndian width n) = n := by
  induction width generalizing n with
  | zero =>
      obtain rfl : n = 0 := by simpa using hn
      rfl
  | succ width ih =>
      rw [Nat.pow_succ] at hn
      have hrest : n / 256 < 256 ^ width := Nat.div_lt_of_lt_mul (by omega)
      have hbyte : (UInt8.ofNat n).toNat = n % 256 := UInt8.toNat_ofNat'
      rw [littleEndian, toNatLittle, ih hrest, hbyte]
      exact Nat.mod_add_div n 256

end Bytes

namespace Catalog

/-! ## Numbers -/

theorem readFixed_littleEndian {width n : Nat} (hn : n < 256 ^ width) (rest : Bytes) :
    readFixed width (Bytes.littleEndian width n ++ rest) = some (n, rest) := by
  have hlength := Bytes.length_littleEndian width n
  rw [readFixed, if_neg (by rw [List.length_append]; omega), List.take_left' hlength,
    List.drop_left' hlength, Bytes.toNatLittle_littleEndian hn]

/-- A number of one byte is read by readers of every width. -/
theorem readNat_writeNat_of_lt {widest n : Nat} (hn : n < 251) (rest : Bytes) :
    readNat widest (writeNat n ++ rest) = some (n, rest) := by
  have hbyte : (UInt8.ofNat n).toNat = n := by
    rw [UInt8.toNat_ofNat']
    exact Nat.mod_eq_of_lt (by omega)
  rw [writeNat, if_pos hn, List.singleton_append, readNat]
  simp only [hbyte, if_pos hn]

/-- A number behind a byte that gives its width. -/
theorem readNat_marked {widest width n : Nat} {mark : UInt8}
    (hmark : mark = 251 ∧ width = 2 ∨ mark = 252 ∧ width = 4 ∨ mark = 253 ∧ width = 8)
    (hwidth : width ≤ widest) (hn : n < 256 ^ width) (rest : Bytes) :
    readNat widest (mark :: Bytes.littleEndian width n ++ rest) = some (n, rest) := by
  have hread : readNat widest (mark :: Bytes.littleEndian width n ++ rest) =
      if 0 < width ∧ width ≤ widest then readFixed width (Bytes.littleEndian width n ++ rest)
      else none := by
    rcases hmark with ⟨rfl, rfl⟩ | ⟨rfl, rfl⟩ | ⟨rfl, rfl⟩ <;> rfl
  rw [hread, if_pos ⟨by omega, hwidth⟩, readFixed_littleEndian hn]

/-- The number of bytes grows at 251, at `2 ^ 16` and at `2 ^ 32`, and the reader follows. -/
theorem readNat_writeNat {n : Nat} (hn : n < 2 ^ 64) (rest : Bytes) :
    readNat 8 (writeNat n ++ rest) = some (n, rest) := by
  by_cases hone : n < 251
  · exact readNat_writeNat_of_lt hone rest
  · rw [writeNat, if_neg hone]
    split
    · rename_i htwo
      exact readNat_marked (.inl ⟨rfl, rfl⟩) (by decide) htwo rest
    · split
      · rename_i hfour
        exact readNat_marked (.inr (.inl ⟨rfl, rfl⟩)) (by decide) hfour rest
      · exact readNat_marked (.inr (.inr ⟨rfl, rfl⟩)) (by decide) hn rest

/-! ## The parts of a definition -/

theorem readBool_writeBool (b : Bool) (rest : Bytes) :
    readBool (writeBool b ++ rest) = some (b, rest) := by
  cases b <;> rfl

theorem readText_writeText {s : String} (hs : (utf8 s).length < 2 ^ 64) (rest : Bytes) :
    readText (writeText s ++ rest) = some (s, rest) := by
  rw [writeText, List.append_assoc, readText, readNat_writeNat hs]
  simp only [Option.bind_eq_bind, Option.bind_some]
  rw [if_neg (by rw [List.length_append]; omega), List.take_left, List.drop_left,
    Utf8.decode_utf8]

theorem readType_writeNat (type : ValueType) (rest : Bytes) :
    readType (writeNat (typeNumber type) ++ rest) = some (type, rest) := by
  cases type <;> rfl

theorem readKind_writeNat (kind : ColumnKind) (rest : Bytes) :
    readKind (writeNat (kindNumber kind) ++ rest) = some (kind, rest) := by
  cases kind <;> rfl

theorem readColumn_writeColumn {c : Column} (hc : (utf8 c.name).length < 2 ^ 64)
    (rest : Bytes) : readColumn (writeColumn c ++ rest) = some (c, rest) := by
  simp only [writeColumn, readColumn, List.append_assoc, readText_writeText hc,
    readType_writeNat, readBool_writeBool, readKind_writeNat, Option.bind_eq_bind,
    Option.bind_some]

/-- Values are read one after the other if each of them is. -/
theorem readMany_flatMap {α : Type} {read : Reader α} {write : α → Bytes} {xs : List α}
    (h : ∀ x ∈ xs, ∀ rest, read (write x ++ rest) = some (x, rest)) (rest : Bytes) :
    readMany read xs.length (xs.flatMap write ++ rest) = some (xs, rest) := by
  induction xs with
  | nil => rfl
  | cons x xs ih =>
      have hfirst := h x List.mem_cons_self
      have hothers := ih fun y hy => h y (List.mem_cons_of_mem x hy)
      rw [List.flatMap_cons, List.append_assoc, List.length_cons, readMany, hfirst]
      simp only [Option.bind_eq_bind, Option.bind_some]
      rw [hothers]
      rfl

theorem readGroup_writeGroup {group : Option CoordinateGroup}
    (h : ∀ g, group = some g → g.first < 2 ^ 64 ∧ g.dimensions < 2 ^ 64) (rest : Bytes) :
    readGroup (writeGroup group ++ rest) = some (group, rest) := by
  cases group with
  | none => rfl
  | some g =>
      obtain ⟨hfirst, hdimensions⟩ := h g rfl
      rw [writeGroup, List.cons_append, List.append_assoc, readGroup, if_neg (by decide),
        if_pos rfl, readNat_writeNat hfirst]
      simp only [Option.bind_eq_bind, Option.bind_some]
      rw [readNat_writeNat hdimensions]
      rfl

end Catalog

namespace Index

/-- All numbers of a definition, and the lengths of its texts and of its list of columns, fit in
machine words of 64 bits. -/
structure Fits (ix : Index) : Prop where
  table : (utf8 ix.table).length < 2 ^ 64
  name : (utf8 ix.name).length < 2 ^ 64
  count : ix.columns.length < 2 ^ 64
  columns : ∀ c ∈ ix.columns, (utf8 c.name).length < 2 ^ 64
  declared : ix.declared < 2 ^ 64
  group : ∀ g, ix.spatial = some g → g.first < 2 ^ 64 ∧ g.dimensions < 2 ^ 64

theorem read_toBytes {ix : Index} (h : ix.Fits) (rest : Bytes) :
    read (ix.toBytes ++ rest) = some (ix, rest) := by
  have hcolumns (tail : Bytes) :
      Catalog.readMany Catalog.readColumn ix.columns.length
        (ix.columns.flatMap Catalog.writeColumn ++ tail) = some (ix.columns, tail) :=
    Catalog.readMany_flatMap
      (fun c hc tail => Catalog.readColumn_writeColumn (h.columns c hc) tail) tail
  simp only [toBytes, read, List.append_assoc, Catalog.readText_writeText h.table,
    Catalog.readText_writeText h.name, Catalog.readNat_writeNat h.count, hcolumns,
    Catalog.readNat_writeNat h.declared, Catalog.readBool_writeBool,
    Catalog.readGroup_writeGroup h.group, Option.bind_eq_bind, Option.bind_some]

theorem ofBytes_toBytes_append {ix : Index} (h : ix.Fits) (rest : Bytes) :
    ofBytes (ix.toBytes ++ rest) = .ok ix := by
  rw [ofBytes, read_toBytes h]

/-- The definition is all that can be read from bytes that begin with its own. -/
theorem eq_of_isPrefix_toBytes {ix ix' : Index} (h : ix.Fits) (h' : ix'.Fits)
    (hbytes : ix'.toBytes <+: ix.toBytes) : ix' = ix := by
  obtain ⟨rest, hrest⟩ := hbytes
  have hread := ofBytes_toBytes_append h' rest
  rw [hrest, ← List.append_nil ix.toBytes, ofBytes_toBytes_append h] at hread
  exact (Except.ok.inj hread).symm

/-- A definition is read back from its catalog bytes, whatever follows them, and two definitions
never have the same bytes: those of the one do not even begin those of the other. -/
theorem ofBytes_round_trips {ix : Index} (h : ix.Fits) :
    (∀ rest : Bytes, ofBytes (ix.toBytes ++ rest) = .ok ix) ∧
      ∀ ix' : Index, ix'.Fits → ix' ≠ ix →
        ix'.toBytes ≠ ix.toBytes ∧ ¬ ix'.toBytes <+: ix.toBytes := by
  refine ⟨ofBytes_toBytes_append h, fun ix' h' hne => ?_⟩
  have happart : ¬ ix'.toBytes <+: ix.toBytes := fun hbytes =>
    hne (eq_of_isPrefix_toBytes h h' hbytes)
  exact ⟨fun heq => happart (heq ▸ List.prefix_rfl), happart⟩

/-- Numbers of one, three, five and nine bytes, in front of bytes that look like more of them. -/
theorem ofBytes_round_trips_wide :
    let ix : Index :=
      ⟨"", "a.b", [⟨"k", .bytes, false, .hierarchical⟩], 2 ^ 64 - 1, true, some ⟨251, 2 ^ 16⟩⟩
    let ix' : Index := { ix with declared := 2 ^ 32 - 1 }
    ofBytes (ix.toBytes ++ [0, 253]) = .ok ix ∧ ofBytes ix'.toBytes = .ok ix' ∧
      ¬ ix'.toBytes <+: ix.toBytes := by
  intro ix ix'
  have hname : (utf8 "a.b").length < 2 ^ 64 := by decide +kernel
  have hcolumns : ∀ c ∈ ix.columns, (utf8 c.name).length < 2 ^ 64 := by
    intro c hc
    obtain rfl := List.mem_singleton.mp hc
    decide +kernel
  have hgroup : ∀ g, ix.spatial = some g → g.first < 2 ^ 64 ∧ g.dimensions < 2 ^ 64 := by
    rintro _ ⟨⟩
    decide
  have h : ix.Fits := ⟨by decide +kernel, hname, by decide, hcolumns, by decide, hgroup⟩
  have h' : ix'.Fits := ⟨h.table, hname, h.count, hcolumns, by decide, hgroup⟩
  obtain ⟨hread, happart⟩ := ofBytes_round_trips h
  refine ⟨hread [0, 253], ?_, (happart ix' h' (by decide)).2⟩
  have hread' := (ofBytes_round_trips h').1 []
  rwa [List.append_nil] at hread'

end Index
end OrderedQuery
