import OrderedQuery.Store.Basic
import OrderedQuery.Proofs.Key.Prefix
import OrderedQuery.Proofs.Key.RoundTrip

/-!
# Tables inside the store

As long as the name of a table holds no zero byte, the stored keys of the table are the
stored keys that begin with the name and a zero byte, and a scan of the table returns its
entries in the requested range and order.  `Store.tableEntries` and `Store.visible` are
these lists; they know nothing about how a scan finds them.
-/

namespace OrderedQuery

namespace Bytes

theorem settled?_self (p : Bytes) : settled? p p = some .eq := by
  induction p with
  | nil => rfl
  | cons a p ih => rw [settled?_cons_self, ih]

theorem append_lt_append_iff {p x y : Bytes} : p ++ x < p ++ y ↔ x < y := by
  rw [← compare_eq_lt_iff, ← compare_eq_lt_iff, compare_append (settled?_self p)]
  rfl

theorem append_le_append_iff {p x y : Bytes} : p ++ x ≤ p ++ y ↔ x ≤ y := by
  rw [← List.not_lt, ← List.not_lt, append_lt_append_iff]

end Bytes

namespace Layout

/-- The name of a table holds no zero byte. -/
def ZeroFree (table : String) : Prop :=
  ∀ b ∈ utf8 table, b ≠ 0

instance (table : String) : Decidable (ZeroFree table) :=
  inferInstanceAs (Decidable (∀ b ∈ utf8 table, b ≠ 0))

theorem storedKey_eq (table : String) (key : Bytes) :
    storedKey table key = tableStart table ++ key := by
  simp [storedKey, tableStart]

theorem storedKey_lt_iff {table : String} {j k : Bytes} :
    storedKey table j < storedKey table k ↔ j < k := by
  rw [storedKey_eq, storedKey_eq, Bytes.append_lt_append_iff]

theorem storedKey_le_iff {table : String} {j k : Bytes} :
    storedKey table j ≤ storedKey table k ↔ j ≤ k := by
  rw [storedKey_eq, storedKey_eq, Bytes.append_le_append_iff]

theorem storedKey_inj {table : String} {j k : Bytes} :
    storedKey table j = storedKey table k ↔ j = k := by
  rw [storedKey_eq, storedKey_eq, List.append_cancel_left_eq]

/-- The key that stands behind a stored key of a table, if it is one. -/
def keyOf? (table : String) (stored : Bytes) : Option Bytes :=
  if (tableStart table).isPrefixOf stored then some (stored.drop (tableStart table).length)
  else none

theorem keyOf?_eq_some_iff {table : String} {stored key : Bytes} :
    keyOf? table stored = some key ↔ stored = storedKey table key := by
  rw [keyOf?, storedKey_eq]
  constructor
  · intro h
    split at h
    · rename_i hp
      obtain ⟨rest, rfl⟩ := List.isPrefixOf_iff_prefix.mp hp
      obtain rfl : rest = key := by simpa using h
      rfl
    · cases h
  · rintro rfl
    rw [if_pos (List.isPrefixOf_iff_prefix.mpr (List.prefix_append _ _)),
      List.drop_left]

@[simp]
theorem keyOf?_storedKey (table : String) (key : Bytes) :
    keyOf? table (storedKey table key) = some key :=
  keyOf?_eq_some_iff.mpr rfl

/-- A stored key is split behind the name of its table. -/
theorem splitKey?_storedKey {table : String} (hfree : ZeroFree table) (key : Bytes) :
    splitKey? (storedKey table key) = some (table, key) := by
  have hall : ∀ b ∈ utf8 table, (b != 0) = true := by
    intro b hb
    simpa using hfree b hb
  rw [splitKey?, storedKey, List.dropWhile_append_of_pos hall,
    List.takeWhile_append_of_pos hall]
  simp [Utf8.decode_utf8]

theorem successor?_append_zero (b : Bytes) :
    Key.successor? (b ++ [0]) = some (b ++ [1]) := by
  induction b with
  | nil => rfl
  | cons c b ih => rw [List.cons_append, Key.successor?, ih]; rfl

/-- The stored keys of a table are those from its start up to its end. -/
theorem tableStart_isPrefix_iff {table : String} {stored : Bytes} :
    tableStart table <+: stored ↔ tableStart table ≤ stored ∧ stored < tableEnd table := by
  have hend : Key.successor? (tableStart table) = some (tableEnd table) :=
    successor?_append_zero (utf8 table)
  rw [Key.isPrefix_iff, hend]
  simp

theorem tableStart_isPrefix_storedKey (table : String) (key : Bytes) :
    tableStart table <+: storedKey table key := by
  rw [storedKey_eq]
  exact List.prefix_append _ _

theorem tableStart_le_storedKey (table : String) (key : Bytes) :
    tableStart table ≤ storedKey table key :=
  (tableStart_isPrefix_iff.mp (tableStart_isPrefix_storedKey table key)).1

theorem storedKey_lt_tableEnd (table : String) (key : Bytes) :
    storedKey table key < tableEnd table :=
  (tableStart_isPrefix_iff.mp (tableStart_isPrefix_storedKey table key)).2

end Layout

namespace KeyRange

/-- The part of a range that lies behind a key, in scan direction. -/
def after (r : KeyRange) : Option Bytes → Direction → KeyRange
  | none, _ => r
  | some k, .forward => ⟨.excluded k, r.high⟩
  | some k, .backward => ⟨r.low, .excluded k⟩

end KeyRange

namespace Layout

theorem storedRange_eq (table : String) (range : KeyRange) (resume : Option Bytes)
    (direction : Direction) :
    storedRange table range resume direction =
      ⟨storedLow table (range.after resume direction).low,
        storedHigh table (range.after resume direction).high⟩ := by
  cases resume with
  | none => cases direction <;> rfl
  | some k => cases direction <;> rfl

theorem storedLow_admitsAbove (table : String) (low : Bound) (key : Bytes) :
    (storedLow table low).admitsAbove (storedKey table key) = low.admitsAbove key := by
  cases low with
  | unbounded => simp [storedLow, Bound.admitsAbove, tableStart_le_storedKey]
  | included k => simp [storedLow, Bound.admitsAbove, storedKey_le_iff]
  | excluded k => simp [storedLow, Bound.admitsAbove, storedKey_lt_iff]

theorem storedHigh_admitsBelow (table : String) (high : Bound) (key : Bytes) :
    (storedHigh table high).admitsBelow (storedKey table key) = high.admitsBelow key := by
  cases high with
  | unbounded => simp [storedHigh, Bound.admitsBelow, storedKey_lt_tableEnd]
  | included k => simp [storedHigh, Bound.admitsBelow, storedKey_le_iff]
  | excluded k => simp [storedHigh, Bound.admitsBelow, storedKey_lt_iff]

theorem tableStart_le_of_admitsAbove {table : String} {low : Bound} {stored : Bytes}
    (h : (storedLow table low).admitsAbove stored) : tableStart table ≤ stored := by
  cases low with
  | unbounded => simpa [storedLow, Bound.admitsAbove] using h
  | included k =>
      have hk : storedKey table k ≤ stored := by
        simpa [storedLow, Bound.admitsAbove] using h
      exact List.le_trans (tableStart_le_storedKey table k) hk
  | excluded k =>
      have hk : storedKey table k < stored := by
        simpa [storedLow, Bound.admitsAbove] using h
      exact List.le_trans (tableStart_le_storedKey table k) (List.le_of_lt hk)

theorem lt_tableEnd_of_admitsBelow {table : String} {high : Bound} {stored : Bytes}
    (h : (storedHigh table high).admitsBelow stored) : stored < tableEnd table := by
  cases high with
  | unbounded => simpa [storedHigh, Bound.admitsBelow] using h
  | included k =>
      have hk : stored ≤ storedKey table k := by
        simpa [storedHigh, Bound.admitsBelow] using h
      exact List.lt_of_le_of_lt hk (storedKey_lt_tableEnd table k)
  | excluded k =>
      have hk : stored < storedKey table k := by
        simpa [storedHigh, Bound.admitsBelow] using h
      exact List.lt_trans hk (storedKey_lt_tableEnd table k)

/-- The stored keys a scan visits are those of the table whose keys lie in the range. -/
theorem storedRange_contains (table : String) (range : KeyRange) (resume : Option Bytes)
    (direction : Direction) (stored : Bytes) :
    (storedRange table range resume direction).contains stored =
      (keyOf? table stored).any (range.after resume direction).contains := by
  rw [storedRange_eq, KeyRange.contains]
  cases hkey : keyOf? table stored with
  | some key =>
      rw [keyOf?_eq_some_iff] at hkey
      rw [hkey, storedLow_admitsAbove, storedHigh_admitsBelow]
      rfl
  | none =>
      rw [Option.any_none, Bool.eq_false_iff]
      intro h
      rw [Bool.and_eq_true] at h
      have hp := tableStart_isPrefix_iff.mpr
        ⟨tableStart_le_of_admitsAbove h.1, lt_tableEnd_of_admitsBelow h.2⟩
      obtain ⟨key, rfl⟩ := hp
      rw [← storedKey_eq, keyOf?_storedKey] at hkey
      cases hkey

end Layout

/-- One key comes before another in scan direction. -/
def Direction.Before : Direction → Bytes → Bytes → Prop
  | forward, a, b => a < b
  | backward, a, b => b < a

theorem Direction.Before.ne {direction : Direction} {a b : Bytes}
    (h : direction.Before a b) : a ≠ b := by
  cases direction with
  | forward => exact Std.ne_of_lt h
  | backward => exact (Std.ne_of_lt h).symm

/-- A list of entries in scan direction; the list itself ascends. -/
def Direction.orient {α : Type} : Direction → List α → List α
  | forward, xs => xs
  | backward, xs => xs.reverse

@[simp]
theorem Direction.mem_orient {α : Type} {direction : Direction} {xs : List α} {x : α} :
    x ∈ direction.orient xs ↔ x ∈ xs := by
  cases direction <;> simp [orient]

theorem Direction.length_orient {α : Type} (direction : Direction) (xs : List α) :
    (direction.orient xs).length = xs.length := by
  cases direction <;> simp [orient]

theorem Direction.filter_orient {α : Type} (direction : Direction) (p : α → Bool)
    (xs : List α) : (direction.orient xs).filter p = direction.orient (xs.filter p) := by
  cases direction <;> simp [orient]

theorem Direction.filterMap_orient {α β : Type} (direction : Direction) (f : α → Option β)
    (xs : List α) :
    (direction.orient xs).filterMap f = direction.orient (xs.filterMap f) := by
  cases direction <;> simp [orient]

namespace Store

/-- The entries of a table, ascending. -/
def tableEntries (s : Store) (table : String) : List Entry :=
  s.entries.filterMap fun e => (Layout.keyOf? table e.1).map fun key => (key, e.2)

/-- The entries of a table that lie in a range, in scan direction. -/
def visible (s : Store) (table : String) (range : KeyRange) (direction : Direction) :
    List Entry :=
  direction.orient ((s.tableEntries table).filter fun e => range.contains e.1)

theorem mem_tableEntries_iff {s : Store} {table : String} {e : Entry} :
    e ∈ s.tableEntries table ↔ (Layout.storedKey table e.1, e.2) ∈ s.entries := by
  simp only [tableEntries, List.mem_filterMap, Option.map_eq_some_iff,
    Layout.keyOf?_eq_some_iff]
  constructor
  · rintro ⟨⟨stored, value⟩, hmem, key, hkey, rfl⟩
    exact hkey ▸ hmem
  · intro hmem
    exact ⟨_, hmem, e.1, rfl, rfl⟩

theorem ascending_tableEntries (s : Store) (table : String) :
    Ascending (s.tableEntries table) := by
  refine List.pairwise_filterMap.mpr (s.ascending.imp ?_)
  intro a b hab x hx y hy
  obtain ⟨j, hj, rfl⟩ := Option.map_eq_some_iff.mp hx
  obtain ⟨k, hk, rfl⟩ := Option.map_eq_some_iff.mp hy
  rw [Layout.keyOf?_eq_some_iff] at hj hk
  rw [hj, hk, Layout.storedKey_lt_iff] at hab
  exact hab

theorem exists_mem_insertEntry_iff (key value k : Bytes) (entries : List Entry) :
    (∃ v, (k, v) ∈ insertEntry key value entries) ↔ k = key ∨ ∃ v, (k, v) ∈ entries := by
  induction entries with
  | nil => simp [insertEntry]
  | cons e rest ih =>
      rw [insertEntry]
      split
      · simp [exists_or]
      · split
        · rename_i heq
          simp only [List.mem_cons, exists_or, heq, Prod.ext_iff]
          simp
        · simp only [List.mem_cons, exists_or, ih]
          tauto

/-- After an insertion the stored keys are those from before and the new one. -/
theorem exists_mem_insert_iff (s : Store) (key value k : Bytes) :
    (∃ v, (k, v) ∈ (s.insert key value).entries) ↔ k = key ∨ ∃ v, (k, v) ∈ s.entries :=
  exists_mem_insertEntry_iff key value k s.entries

theorem mem_visible_iff {s : Store} {table : String} {range : KeyRange}
    {direction : Direction} {e : Entry} :
    e ∈ s.visible table range direction ↔
      (Layout.storedKey table e.1, e.2) ∈ s.entries ∧ range.contains e.1 := by
  rw [visible, Direction.mem_orient, List.mem_filter, mem_tableEntries_iff]

/-- Entries are visited in scan direction, each key once. -/
theorem pairwise_visible (s : Store) (table : String) (range : KeyRange)
    (direction : Direction) :
    (s.visible table range direction).Pairwise fun a b => direction.Before a.1 b.1 := by
  have hsorted := (s.ascending_tableEntries table).filter fun e => range.contains e.1
  cases direction with
  | forward => exact hsorted
  | backward => exact List.pairwise_reverse.mpr hsorted

/-- A scan returns the first entries of a table that lie in the range, behind the key it
resumes after. -/
theorem scan_eq_take {table : String} (hfree : Layout.ZeroFree table) (s : Store)
    (range : KeyRange) (resume : Option Bytes) (direction : Direction) (limit : Nat) :
    s.scan table range resume direction limit =
      (s.visible table (range.after resume direction) direction).take limit := by
  have hentry (e : Entry) :
      (if (Layout.storedRange table range resume direction).contains e.1
        then tableEntry? e else none) =
        ((Layout.keyOf? table e.1).map fun key => (key, e.2)).filter
          fun e => (range.after resume direction).contains e.1 := by
    rw [Layout.storedRange_contains]
    cases hkey : Layout.keyOf? table e.1 with
    | none => rfl
    | some key =>
        rw [Layout.keyOf?_eq_some_iff] at hkey
        have hentry : tableEntry? e = some (key, e.2) := by
          show (Layout.splitKey? e.1).map _ = _
          rw [hkey, Layout.splitKey?_storedKey hfree]
          rfl
        rw [hentry]
        by_cases hin : (range.after resume direction).contains key
        · simp [hin, Option.filter]
        · simp [hin, Option.filter]
  have hfound : (s.within (Layout.storedRange table range resume direction)).filterMap
      tableEntry? = (s.tableEntries table).filter
        fun e => (range.after resume direction).contains e.1 := by
    rw [within, tableEntries, List.filterMap_filter, List.filter_filterMap]
    exact congrArg (fun f => s.entries.filterMap f) (funext hentry)
  rw [visible, ← hfound, ← Direction.filterMap_orient]
  cases direction <;> rfl

end Store
end OrderedQuery
