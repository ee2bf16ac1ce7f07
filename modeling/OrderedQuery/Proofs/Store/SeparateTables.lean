import Mathlib.Logic.Function.Basic
import OrderedQuery.Proofs.Store.Range
import OrderedQuery.Store.Transaction

/-!
# Tables that know nothing of each other

All tables share one ordered map, but a transaction that writes cannot tell.  Its answers are
those of one map for each table (`Transaction.replies_of_separate_tables`), where such a map is
nothing but what it holds under each key, and a scan lists that in the order of the keys.
-/

namespace OrderedQuery

/-! ## The store as a map -/

/-- No key comes twice. -/
theorem Ascending.eq_of_fst_eq {entries : List Entry} (h : Ascending entries) {a b : Entry}
    (ha : a ∈ entries) (hb : b ∈ entries) (hkey : a.1 = b.1) : a = b := by
  induction entries with
  | nil => cases ha
  | cons e rest ih =>
      obtain ⟨hfirst, hrest⟩ := List.pairwise_cons.mp h
      rcases List.mem_cons.mp ha with rfl | ha
      · rcases List.mem_cons.mp hb with rfl | hb
        · rfl
        · exact absurd hkey (Std.ne_of_lt (hfirst b hb))
      · rcases List.mem_cons.mp hb with hb | hb
        · exact absurd (hkey.trans (congrArg Prod.fst hb)).symm (Std.ne_of_lt (hfirst a ha))
        · exact ih hrest ha hb

namespace Store

theorem get?_eq_some_iff {s : Store} {key value : Bytes} :
    s.get? key = some value ↔ (key, value) ∈ s.entries := by
  have hfound (e : Entry) (h : s.entries.find? (fun e => e.1 == key) = some e) :
      e.1 = key ∧ e ∈ s.entries :=
    ⟨by simpa using List.find?_some h, List.mem_of_find?_eq_some h⟩
  rw [get?, Option.map_eq_some_iff]
  constructor
  · rintro ⟨e, he, rfl⟩
    obtain ⟨rfl, hmem⟩ := hfound e he
    exact hmem
  · intro hmem
    have hsome : (s.entries.find? fun e => e.1 == key).isSome :=
      List.find?_isSome.mpr ⟨_, hmem, beq_self_eq_true key⟩
    obtain ⟨e, he⟩ := Option.isSome_iff_exists.mp hsome
    obtain ⟨hkey, hmem'⟩ := hfound e he
    exact ⟨e, he, congrArg Prod.snd (s.ascending.eq_of_fst_eq hmem' hmem hkey)⟩

theorem mem_insertEntry_iff {key value : Bytes} {entries : List Entry} (h : Ascending entries)
    {e : Entry} :
    e ∈ insertEntry key value entries ↔ e = (key, value) ∨ e.1 ≠ key ∧ e ∈ entries := by
  induction entries with
  | nil => simp [insertEntry]
  | cons first rest ih =>
      obtain ⟨hfirst, hrest⟩ := List.pairwise_cons.mp h
      rw [insertEntry]
      split
      · rename_i hlt
        have hother : ∀ e ∈ first :: rest, e.1 ≠ key := by
          intro e he
          rcases List.mem_cons.mp he with rfl | he
          · exact (Std.ne_of_lt hlt).symm
          · exact (Std.ne_of_lt (List.lt_trans hlt (hfirst e he))).symm
        rw [List.mem_cons]
        exact or_congr_right ⟨fun he => ⟨hother e he, he⟩, And.right⟩
      · split
        · rename_i heq
          rw [List.mem_cons, List.mem_cons]
          refine or_congr_right ⟨fun he => ⟨?_, .inr he⟩, ?_⟩
          · exact heq ▸ (Std.ne_of_lt (hfirst e he)).symm
          · rintro ⟨hne, rfl | he⟩
            · exact absurd heq.symm hne
            · exact he
        · rename_i hne
          rw [List.mem_cons, List.mem_cons, ih hrest]
          constructor
          · rintro (rfl | rfl | ⟨hother, he⟩)
            · exact .inr ⟨Ne.symm hne, .inl rfl⟩
            · exact .inl rfl
            · exact .inr ⟨hother, .inr he⟩
          · rintro (rfl | ⟨hother, rfl | he⟩)
            · exact .inr (.inl rfl)
            · exact .inl rfl
            · exact .inr (.inr ⟨hother, he⟩)

/-- A key holds what was last written under it. -/
theorem get?_insert (s : Store) (key value k : Bytes) :
    (s.insert key value).get? k = if k = key then some value else s.get? k := by
  ext v
  rw [get?_eq_some_iff, insert, mem_insertEntry_iff s.ascending]
  by_cases hk : k = key
  · simp [hk, eq_comm]
  · simp [hk, get?_eq_some_iff]

theorem get?_erase (s : Store) (key k : Bytes) :
    (s.erase key).get? k = if k = key then none else s.get? k := by
  ext v
  rw [get?_eq_some_iff, erase, List.mem_filter]
  by_cases hk : k = key
  · simp [hk]
  · simp [hk, get?_eq_some_iff]

end Store

/-! ## Calls on tables -/

/-- A name of a table that holds no zero byte. -/
abbrev TableName := {table : String // Layout.ZeroFree table}

/-- A call on a table. -/
inductive TableCall where
  | put (key value : Bytes)
  | get (key : Bytes)
  | delete (key : Bytes)
  | scan (range : KeyRange) (direction : Direction) (limit : Nat)
  deriving DecidableEq, Repr

/-- What a call on a table answers. -/
inductive TableReply where
  | done
  | value (value : Option Bytes)
  | removed (present : Bool)
  | entries (entries : List Entry)
  deriving DecidableEq, Repr

namespace Transaction

/-- Carries out a call on a table. -/
def call (t : Transaction) (table : TableName) :
    TableCall → Except StoreError (TableReply × Transaction)
  | .put key value => (t.put table key value).map fun t => (.done, t)
  | .get key => .ok (.value (t.get? table key), t)
  | .delete key => (t.delete table key).map fun (present, t) => (.removed present, t)
  | .scan range direction limit =>
      .ok (.entries (t.scan table range none direction limit), t)

/-- Carries out calls one after the other, up to the first that is refused. -/
def callAll (t : Transaction) :
    List (TableName × TableCall) → Except StoreError (List TableReply × Transaction)
  | [] => .ok ([], t)
  | (table, c) :: calls =>
      match t.call table c with
      | .error e => .error e
      | .ok (reply, t) =>
          match t.callAll calls with
          | .error e => .error e
          | .ok (replies, t) => .ok (reply :: replies, t)

end Transaction

/-! ## One map for each table -/

/-- For each table, what it holds under each key. -/
abbrev Tables := TableName → Bytes → Option Bytes

namespace Tables

/-- Changes what a table holds under a key. -/
def set (ts : Tables) (table : TableName) (key : Bytes) (value : Option Bytes) : Tables :=
  Function.update ts table (Function.update (ts table) key value)

/-- The entries of a table in a range, each once and in scan direction. -/
structure Lists (ts : Tables) (table : TableName) (range : KeyRange) (direction : Direction)
    (listed : List Entry) : Prop where
  pairwise : listed.Pairwise fun a b => direction.Before a.1 b.1
  mem_iff : ∀ key value,
    (key, value) ∈ listed ↔ range.contains key ∧ ts table key = some value

/-- What a table answers to a call, and what the tables hold afterwards. -/
def Answers (ts : Tables) (table : TableName) : TableCall → TableReply → Tables → Prop
  | .put key value, reply, after => reply = .done ∧ after = ts.set table key (some value)
  | .get key, reply, after => reply = .value (ts table key) ∧ after = ts
  | .delete key, reply, after =>
      reply = .removed (ts table key).isSome ∧ after = ts.set table key none
  | .scan range direction limit, reply, after =>
      (∃ listed, ts.Lists table range direction listed ∧
        reply = .entries (listed.take limit)) ∧ after = ts

/-- What the tables answer to calls one after the other. -/
inductive Replies : Tables → List (TableName × TableCall) → List TableReply → Tables → Prop
  | nil (ts : Tables) : Replies ts [] [] ts
  | cons {ts ts' after : Tables} {table : TableName} {c : TableCall} {reply : TableReply}
      {calls : List (TableName × TableCall)} {replies : List TableReply}
      (h : ts.Answers table c reply ts') (hrest : Replies ts' calls replies after) :
      Replies ts ((table, c) :: calls) (reply :: replies) after

variable {ts : Tables} {table : TableName}

theorem set_of_ne {other : TableName} (h : other ≠ table) (key : Bytes) (value : Option Bytes) :
    ts.set table key value other = ts other :=
  Function.update_of_ne h _ _

/-- The order of a listing leaves no choice. -/
theorem Lists.unique {range : KeyRange} {direction : Direction} {listed listed' : List Entry}
    (h : ts.Lists table range direction listed) (h' : ts.Lists table range direction listed') :
    listed = listed' := by
  have hnodup {l : List Entry} (hl : l.Pairwise fun a b => direction.Before a.1 b.1) : l.Nodup :=
    hl.imp fun hab heq => hab.ne (congrArg Prod.fst heq)
  have hperm : listed.Perm listed' := by
    rw [List.perm_ext_iff_of_nodup (hnodup h.pairwise) (hnodup h'.pairwise)]
    rintro ⟨key, value⟩
    rw [h.mem_iff, h'.mem_iff]
  refine hperm.eq_of_pairwise ?_ h.pairwise h'.pairwise
  intro a b _ _ hab hba
  exact absurd hba hab.asymm

theorem Answers.unique {c : TableCall} {reply reply' : TableReply} {after after' : Tables}
    (h : ts.Answers table c reply after) (h' : ts.Answers table c reply' after') :
    reply = reply' ∧ after = after' := by
  cases c with
  | put key value => exact ⟨h.1.trans h'.1.symm, h.2.trans h'.2.symm⟩
  | get key => exact ⟨h.1.trans h'.1.symm, h.2.trans h'.2.symm⟩
  | delete key => exact ⟨h.1.trans h'.1.symm, h.2.trans h'.2.symm⟩
  | scan range direction limit =>
      obtain ⟨⟨listed, hlisted, rfl⟩, hafter⟩ := h
      obtain ⟨⟨listed', hlisted', rfl⟩, hafter'⟩ := h'
      exact ⟨by rw [hlisted.unique hlisted'], hafter.trans hafter'.symm⟩

theorem Replies.unique {calls : List (TableName × TableCall)} {replies replies' : List TableReply}
    {after after' : Tables} (h : ts.Replies calls replies after)
    (h' : ts.Replies calls replies' after') : replies = replies' ∧ after = after' := by
  induction h generalizing replies' with
  | nil =>
      cases h'
      exact ⟨rfl, rfl⟩
  | cons hfirst _ ih =>
      cases h' with
      | cons hfirst' hrest' =>
          obtain ⟨rfl, rfl⟩ := hfirst.unique hfirst'
          obtain ⟨rfl, rfl⟩ := ih hrest'
          exact ⟨rfl, rfl⟩

/-- A call on one table changes no other. -/
theorem Answers.other {c : TableCall} {reply : TableReply} {after : Tables}
    (h : ts.Answers table c reply after) {other : TableName} (hother : other ≠ table) :
    after other = ts other := by
  cases c with
  | put key value => rw [h.2, set_of_ne hother]
  | get key => rw [h.2]
  | delete key => rw [h.2, set_of_ne hother]
  | scan range direction limit => rw [h.2]

theorem Replies.other {calls : List (TableName × TableCall)} {replies : List TableReply}
    {after : Tables} (h : ts.Replies calls replies after) {other : TableName}
    (hother : ∀ c ∈ calls, c.1 ≠ other) : after other = ts other := by
  induction h with
  | nil => rfl
  | cons hfirst _ ih =>
      obtain ⟨hne, hrest⟩ := List.forall_mem_cons.mp hother
      exact (ih hrest).trans (hfirst.other (Ne.symm hne))

end Tables

/-! ## Many tables in one store -/

namespace Layout

/-- Stored keys tell tables and keys apart. -/
theorem storedKey_eq_iff {table table' : TableName} {key key' : Bytes} :
    storedKey table key = storedKey table' key' ↔ table = table' ∧ key = key' := by
  constructor
  · intro h
    have hsplit := congrArg splitKey? h
    rw [splitKey?_storedKey table.2, splitKey?_storedKey table'.2] at hsplit
    obtain ⟨htable, hkey⟩ := Prod.mk.inj (Option.some.inj hsplit)
    exact ⟨Subtype.ext htable, hkey⟩
  · rintro ⟨rfl, rfl⟩
    rfl

end Layout

namespace Store

/-- What the tables of a store hold. -/
def tables (s : Store) : Tables := fun table key => s.get? (Layout.storedKey table key)

theorem tables_of_get? {s s' : Store} {table : TableName} {key : Bytes} {value : Option Bytes}
    (h : ∀ stored, s'.get? stored =
      if stored = Layout.storedKey table key then value else s.get? stored) :
    s'.tables = s.tables.set table key value := by
  funext table' key'
  rw [tables, h]
  simp only [Layout.storedKey_eq_iff]
  by_cases htable : table' = table
  · subst htable
    rw [Tables.set, Function.update_self]
    by_cases hkey : key' = key
    · simp [hkey]
    · simp [hkey, tables]
  · rw [if_neg fun h => htable h.1, Tables.set_of_ne htable, tables]

theorem lists_visible (s : Store) (table : TableName) (range : KeyRange) (direction : Direction) :
    s.tables.Lists table range direction (s.visible table range direction) where
  pairwise := s.pairwise_visible table range direction
  mem_iff key value := by
    rw [mem_visible_iff, and_comm, tables, get?_eq_some_iff]

/-- Tables that hold the same are scanned alike. -/
theorem scan_congr {s s' : Store} {table : TableName} (h : s'.tables table = s.tables table)
    (range : KeyRange) (resume : Option Bytes) (direction : Direction) (limit : Nat) :
    s'.scan table range resume direction limit = s.scan table range resume direction limit := by
  have hlists := s'.lists_visible table (range.after resume direction) direction
  have hlists' : s.tables.Lists table (range.after resume direction) direction
      (s'.visible table (range.after resume direction) direction) :=
    ⟨hlists.pairwise, fun key value => by rw [hlists.mem_iff, h]⟩
  have hvisible := hlists'.unique (s.lists_visible table _ direction)
  rw [scan_eq_take table.2, scan_eq_take table.2, hvisible]

end Store

namespace Transaction

/-- A transaction that writes answers a call as separate tables do. -/
theorem call_answers (s : Store) (table : TableName) (c : TableCall) :
    ∃ reply s', call ⟨.readWrite, s⟩ table c = .ok (reply, ⟨.readWrite, s'⟩) ∧
      s.tables.Answers table c reply s'.tables := by
  cases c with
  | put key value =>
      have hput := Store.tables_of_get? (s.get?_insert (Layout.storedKey table key) value)
      exact ⟨.done, _, rfl, rfl, hput⟩
  | get key => exact ⟨_, s, rfl, rfl, rfl⟩
  | delete key =>
      have hdelete := Store.tables_of_get? (s.get?_erase (Layout.storedKey table key))
      exact ⟨_, _, rfl, rfl, hdelete⟩
  | scan range direction limit =>
      refine ⟨_, s, rfl, ⟨_, s.lists_visible table range direction, ?_⟩, rfl⟩
      have hafter : range.after none direction = range := by cases direction <;> rfl
      rw [scan, Store.scan_eq_take table.2, hafter]

/-- Whatever the store holds, a transaction that writes answers calls as one map for each table
does, and as nothing else does.  A table on which no call is made holds what it held, and is
scanned as before. -/
theorem replies_of_separate_tables (s : Store) (calls : List (TableName × TableCall)) :
    ∃ replies s', callAll ⟨.readWrite, s⟩ calls = .ok (replies, ⟨.readWrite, s'⟩) ∧
      (∀ replies' after, s.tables.Replies calls replies' after ↔
        replies' = replies ∧ after = s'.tables) ∧
      ∀ other : TableName, (∀ c ∈ calls, c.1 ≠ other) → s'.tables other = s.tables other ∧
        ∀ range direction limit, s'.scan other range none direction limit =
          s.scan other range none direction limit := by
  have hreplies : ∃ replies s', callAll ⟨.readWrite, s⟩ calls = .ok (replies, ⟨.readWrite, s'⟩) ∧
      s.tables.Replies calls replies s'.tables := by
    induction calls generalizing s with
    | nil => exact ⟨[], s, rfl, .nil _⟩
    | cons first calls ih =>
        obtain ⟨table, c⟩ := first
        obtain ⟨reply, s₁, hcall, hanswers⟩ := call_answers s table c
        obtain ⟨replies, s₂, hcalls, hrest⟩ := ih s₁
        refine ⟨reply :: replies, s₂, ?_, .cons hanswers hrest⟩
        rw [callAll, hcall]
        dsimp only
        rw [hcalls]
  obtain ⟨replies, s', hcalls, hrun⟩ := hreplies
  refine ⟨replies, s', hcalls, ?_, ?_⟩
  · intro replies' after
    constructor
    · intro hrun'
      exact hrun'.unique hrun
    · rintro ⟨rfl, rfl⟩
      exact hrun
  · intro other hother
    have hsame := hrun.other hother
    exact ⟨hsame, fun range => Store.scan_congr hsame range none⟩

/-- The name of one table begins that of another, which holds the empty key. -/
theorem replies_of_separate_tables_prefix :
    let short : TableName := ⟨"a", by decide +kernel⟩
    let long : TableName := ⟨"ab", by decide +kernel⟩
    let other : TableName := ⟨"b", by decide +kernel⟩
    let calls : List (TableName × TableCall) :=
      [(long, .put [] [1]), (short, .put [0x62] [2]), (short, .scan .all .backward 10),
        (long, .delete []), (short, .get [0x62]), (long, .scan .all .forward 10)]
    let replies : List TableReply :=
      [.done, .done, .entries [([0x62], [2])], .removed true, .value (some [2]), .entries []]
    ∃ s', callAll ⟨.readWrite, .empty⟩ calls = .ok (replies, ⟨.readWrite, s'⟩) ∧
      Store.empty.tables.Replies calls replies s'.tables ∧
      (∀ c ∈ calls, c.1 ≠ other) ∧ s'.tables other = Store.empty.tables other := by
  intro short long other calls replies
  obtain ⟨replies', s', hcalls, hreplies, hother⟩ := replies_of_separate_tables .empty calls
  have hsame : (callAll ⟨.readWrite, .empty⟩ calls).map Prod.fst = .ok replies := by
    decide +kernel
  rw [hcalls] at hsame
  obtain rfl : replies' = replies := Except.ok.inj hsame
  have hapart : ∀ c ∈ calls, c.1 ≠ other := by decide +kernel
  exact ⟨s', hcalls, (hreplies replies s'.tables).mpr ⟨rfl, rfl⟩, hapart, (hother other hapart).1⟩

end Transaction
end OrderedQuery
