import OrderedQuery.Store.Layout

/-!
# The store

A store is an ordered map from stored keys to values: a list of entries whose keys ascend.
Tables are read and written through `Layout.storedKey`.  A scan returns the entries of a
range with the table name taken off their keys; stored keys that have no table name are
passed over.
-/

namespace OrderedQuery

/-- A key and its value. -/
abbrev Entry := Bytes × Bytes

/-- Entries with ascending keys, hence no key twice. -/
def Ascending (entries : List Entry) : Prop :=
  entries.Pairwise fun a b => a.1 < b.1

/-- An ordered map from byte strings to byte strings. -/
structure Store where
  entries : List Entry
  ascending : Ascending entries

namespace Store

/-- Puts an entry in its place, in place of one with the same key. -/
def insertEntry (key value : Bytes) : List Entry → List Entry
  | [] => [(key, value)]
  | e :: rest =>
      if key < e.1 then (key, value) :: e :: rest
      else if key = e.1 then (key, value) :: rest
      else e :: insertEntry key value rest

theorem mem_insertEntry {key value : Bytes} {x : Entry} {entries : List Entry}
    (h : x ∈ insertEntry key value entries) : x = (key, value) ∨ x ∈ entries := by
  induction entries with
  | nil => simpa [insertEntry] using h
  | cons e rest ih =>
      unfold insertEntry at h
      split at h
      · simpa using h
      · split at h
        · rcases List.mem_cons.mp h with h | h
          · exact .inl h
          · exact .inr (List.mem_cons_of_mem _ h)
        · rcases List.mem_cons.mp h with h | h
          · exact .inr (h ▸ List.mem_cons_self)
          · exact (ih h).imp_right (List.mem_cons_of_mem _)

theorem ascending_insertEntry (key value : Bytes) {entries : List Entry}
    (h : Ascending entries) : Ascending (insertEntry key value entries) := by
  induction entries with
  | nil => simp [insertEntry, Ascending]
  | cons e rest ih =>
      have hrest : Ascending rest := (List.pairwise_cons.mp h).2
      have hall : ∀ x ∈ rest, e.1 < x.1 := (List.pairwise_cons.mp h).1
      unfold insertEntry
      split
      · rename_i hlt
        refine List.pairwise_cons.mpr ⟨fun x hx => ?_, h⟩
        rcases List.mem_cons.mp hx with rfl | hx
        · exact hlt
        · exact List.lt_trans hlt (hall x hx)
      · split
        · rename_i heq
          refine List.pairwise_cons.mpr ⟨fun x hx => ?_, hrest⟩
          exact heq ▸ hall x hx
        · rename_i hlt hne
          refine List.pairwise_cons.mpr ⟨fun x hx => ?_, ih hrest⟩
          rcases mem_insertEntry hx with rfl | hx
          · exact Std.lt_of_le_of_ne (Std.not_lt.mp hlt) (Ne.symm hne)
          · exact hall x hx

/-- The store with no entries. -/
def empty : Store := ⟨[], List.Pairwise.nil⟩

instance : Inhabited Store := ⟨empty⟩

/-- Sets the value of a stored key. -/
def insert (s : Store) (key value : Bytes) : Store :=
  ⟨insertEntry key value s.entries, ascending_insertEntry key value s.ascending⟩

/-- Removes a stored key. -/
def erase (s : Store) (key : Bytes) : Store :=
  ⟨s.entries.filter fun e => e.1 != key, s.ascending.filter _⟩

/-- The value of a stored key. -/
def get? (s : Store) (key : Bytes) : Option Bytes :=
  (s.entries.find? fun e => e.1 == key).map Prod.snd

/-- The entries whose stored keys lie in a range, ascending. -/
def within (s : Store) (range : KeyRange) : List Entry :=
  s.entries.filter fun e => range.contains e.1

/-- An entry with the table name taken off its key. -/
def tableEntry? (e : Entry) : Option Entry :=
  (Layout.splitKey? e.1).map fun (_, key) => (key, e.2)

/-- The first `limit` entries of a table that lie in a range, in scan direction, strictly
after `resume` if it is given. -/
def scan (s : Store) (table : String) (range : KeyRange) (resume : Option Bytes)
    (direction : Direction) (limit : Nat) : List Entry :=
  let found := s.within (Layout.storedRange table range resume direction)
  let visited := match direction with
    | .forward => found
    | .backward => found.reverse
  (visited.filterMap tableEntry?).take limit

end Store
end OrderedQuery
