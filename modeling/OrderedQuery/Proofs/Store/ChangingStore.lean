import OrderedQuery.Proofs.Store.Scan

/-!
# Walks over a store that changes

Between two calls of a walk the store can become any other.  `Traversal.steps` records the
calls: which store a call fetched a batch from, if it fetched one, and what it handed out.

The invariant `Traversal.Account` relates a traversal to the stores that were read and the
entries that were handed out.  Every key of the range that has been in all the stores read is
among the entries handed out or in hand, or lies behind all of them, so a batch that is not full
leaves no such key out.
-/

namespace OrderedQuery
namespace Traversal

/-- A call of `next`. -/
structure Step where
  /-- The store that a batch was fetched from. -/
  read : Option Store
  /-- The entry that was handed out. -/
  entry : Option Entry

/-- The next call, if it finds the store `s`. -/
def step (t : Traversal) (s : Store) : Step :=
  ⟨if t.batch.isEmpty && !t.exhausted then some s else none, (t.next s).1⟩

/-- The traversal after calls that find the given stores. -/
def walk : Traversal → List Store → Traversal
  | t, [] => t
  | t, s :: stores => walk (t.next s).2 stores

/-- The calls that find the given stores. -/
def steps : Traversal → List Store → List Step
  | _, [] => []
  | t, s :: stores => t.step s :: steps (t.next s).2 stores

/-- The stores that were read. -/
def reads (past : List Step) : List Store :=
  past.filterMap Step.read

/-- The entries that were handed out. -/
def handed (past : List Step) : List Entry :=
  past.filterMap Step.entry

theorem reads_append (past : List Step) (step : Step) :
    reads (past ++ [step]) = reads past ++ step.read.toList := by
  rw [reads, reads, List.filterMap_append]
  cases h : step.read <;> simp [h]

theorem handed_append (past : List Step) (step : Step) :
    handed (past ++ [step]) = handed past ++ step.entry.toList := by
  rw [handed, handed, List.filterMap_append]
  cases h : step.entry <;> simp [h]


/-- What holds of a traversal after it has read the stores `reads` and handed out the entries
`handed`. -/
structure Account (t : Traversal) (reads : List Store) (handed : List Entry) : Prop where
  free : Layout.ZeroFree t.table
  size : 0 < t.batchSize
  ordered : (handed ++ t.batch).Pairwise fun a b => t.direction.Before a.1 b.1
  within : ∀ e ∈ handed ++ t.batch, t.range.contains e.1
  last : t.lastKey = handed.getLast?.map Prod.fst
  held : ∀ e ∈ t.batch, ∃ s, reads.getLast? = some s ∧ e ∈ s.tableEntries t.table
  covered : ∀ k, t.range.contains k → (∀ s ∈ reads, ∃ v, (k, v) ∈ s.tableEntries t.table) →
    (∃ v, (k, v) ∈ handed ++ t.batch) ∨
      t.exhausted = false ∧ ∀ e ∈ handed ++ t.batch, t.direction.Before e.1 k

variable {t : Traversal}

section Account

variable {reads : List Store} {handed : List Entry}

theorem account_start {table : String} (hfree : Layout.ZeroFree table) (range : KeyRange)
    (direction : Direction) (batchSize : Nat) :
    (start table range direction batchSize).Account [] [] where
  free := hfree
  size := by
    show 0 < max batchSize 1
    omega
  ordered := List.Pairwise.nil
  within := nofun
  last := rfl
  held := nofun
  covered k hk _ := by
    refine .inr ⟨?_, nofun⟩
    rw [← Bool.not_eq_true]
    exact fun hempty => KeyRange.not_contains_of_isEmpty hempty k hk

/-- What lies behind the last key handed out lies behind all of them. -/
theorem Account.before_last_iff (h : t.Account reads handed) {k : Bytes} :
    (∀ j ∈ t.lastKey, t.direction.Before j k) ↔ ∀ e ∈ handed, t.direction.Before e.1 k := by
  rw [h.last]
  constructor
  · intro hk e he
    rcases List.eq_nil_or_concat handed with rfl | ⟨done, last, rfl⟩
    · cases he
    · have hlast : t.direction.Before last.1 k := hk last.1 (by simp)
      have hordered := (List.pairwise_append.mp h.ordered).1
      rw [List.concat_eq_append, List.pairwise_append] at hordered
      rw [List.concat_eq_append, List.mem_append, List.mem_singleton] at he
      rcases he with he | rfl
      · exact (hordered.2.2 e he last (List.mem_singleton_self _)).trans hlast
      · exact hlast
  · intro hk j hj
    obtain ⟨e, he, rfl⟩ := Option.map_eq_some_iff.mp hj
    exact hk e (List.mem_of_getLast? he)

theorem Account.contains_last (h : t.Account reads handed) :
    ∀ j ∈ t.lastKey, t.range.contains j := by
  intro j hj
  rw [h.last] at hj
  obtain ⟨e, he, rfl⟩ := Option.map_eq_some_iff.mp hj
  exact h.within e (List.mem_append_left _ (List.mem_of_getLast? he))

/-- The entries that a batch is fetched from. -/
theorem Account.mem_behind_iff (h : t.Account reads handed) {s : Store} {e : Entry} :
    e ∈ s.visible t.table (t.range.after t.lastKey t.direction) t.direction ↔
      e ∈ s.tableEntries t.table ∧ t.range.contains e.1 ∧
        ∀ j ∈ t.lastKey, t.direction.Before j e.1 := by
  rw [Store.mem_visible_iff, ← Store.mem_tableEntries_iff,
    KeyRange.after_contains_iff h.contains_last]

theorem Account.of_mem_scan (h : t.Account reads handed) {s : Store} {e : Entry}
    (he : e ∈ s.scan t.table t.range t.lastKey t.direction t.batchSize) :
    e ∈ s.tableEntries t.table ∧ t.range.contains e.1 ∧
      ∀ j ∈ t.lastKey, t.direction.Before j e.1 := by
  rw [Store.scan_eq_take h.free] at he
  exact h.mem_behind_iff.mp (List.mem_of_mem_take he)

theorem Account.pairwise_scan (h : t.Account reads handed) (s : Store) :
    (s.scan t.table t.range t.lastKey t.direction t.batchSize).Pairwise
      fun a b => t.direction.Before a.1 b.1 := by
  rw [Store.scan_eq_take h.free]
  exact (Store.pairwise_visible _ _ _ _).sublist (List.take_sublist _ _)

/-- An entry that a batch leaves out lies behind all that the batch has, and the batch is
full. -/
theorem Account.mem_scan_or_before (h : t.Account reads handed) {s : Store} {e : Entry}
    (he : e ∈ s.tableEntries t.table) (hrange : t.range.contains e.1)
    (hlast : ∀ j ∈ t.lastKey, t.direction.Before j e.1) :
    let fetched := s.scan t.table t.range t.lastKey t.direction t.batchSize
    e ∈ fetched ∨ t.batchSize ≤ fetched.length ∧ ∀ e' ∈ fetched, t.direction.Before e'.1 e.1 := by
  intro fetched
  let behind := s.visible t.table (t.range.after t.lastKey t.direction) t.direction
  have hfetched : fetched = behind.take t.batchSize := Store.scan_eq_take h.free s _ _ _ _
  have hsplit : fetched ++ behind.drop t.batchSize = behind := by
    rw [hfetched, List.take_append_drop]
  have hmem : e ∈ fetched ++ behind.drop t.batchSize := by
    rw [hsplit]
    exact h.mem_behind_iff.mpr ⟨he, hrange, hlast⟩
  rcases List.mem_append.mp hmem with hmem | hleft
  · exact .inl hmem
  · have hordered : (fetched ++ behind.drop t.batchSize).Pairwise
        fun a b => t.direction.Before a.1 b.1 := by
      rw [hsplit]
      exact Store.pairwise_visible _ _ _ _
    have hlong : t.batchSize < behind.length := by
      rw [← not_le, ← List.drop_eq_nil_iff]
      exact List.ne_nil_of_mem hleft
    refine .inr ⟨?_, fun e' he' => (List.pairwise_append.mp hordered).2.2 e' he' e hleft⟩
    rw [hfetched, List.length_take]
    omega

/-- Fetching a batch if there is none in hand. -/
theorem Account.fetch (h : t.Account reads handed) (hbatch : t.batch = []) (s : Store) :
    let fetched := s.scan t.table t.range t.lastKey t.direction t.batchSize
    Account { t with batch := fetched, exhausted := decide (fetched.length < t.batchSize) }
      (reads ++ [s]) handed := by
  intro fetched
  have hold := h.ordered
  have hwithin := h.within
  have hcovered := h.covered
  rw [hbatch, List.append_nil] at hold hwithin hcovered
  constructor
  case free => exact h.free
  case size => exact h.size
  case ordered =>
    refine List.pairwise_append.mpr ⟨hold, h.pairwise_scan s, ?_⟩
    intro a ha e he
    exact h.before_last_iff.mp (h.of_mem_scan he).2.2 a ha
  case within =>
    intro e he
    rcases List.mem_append.mp he with he | he
    · exact hwithin e he
    · exact (h.of_mem_scan he).2.1
  case last => exact h.last
  case held =>
    intro e he
    exact ⟨s, by simp, (h.of_mem_scan he).1⟩
  case covered =>
    intro k hk hall
    have hreads : ∀ s ∈ reads, ∃ v, (k, v) ∈ s.tableEntries t.table :=
      fun s' hs' => hall s' (List.mem_append_left _ hs')
    rcases hcovered k hk hreads with ⟨v, hv⟩ | ⟨-, hafter⟩
    · exact .inl ⟨v, List.mem_append_left _ hv⟩
    · obtain ⟨v, hv⟩ := hall s (by simp)
      rcases h.mem_scan_or_before hv hk (h.before_last_iff.mpr hafter) with hmem | ⟨hfull, hbefore⟩
      · exact .inl ⟨v, List.mem_append_right _ hmem⟩
      · refine .inr ⟨decide_eq_false (Nat.not_lt.mpr hfull), ?_⟩
        intro e he
        rcases List.mem_append.mp he with he | he
        · exact hafter e he
        · exact hbefore e he

theorem Account.refill (h : t.Account reads handed) (s : Store) :
    (t.refill s).Account (reads ++ (t.step s).read.toList) handed ∧
      ((t.refill s).batch = [] → (t.refill s).exhausted) := by
  rw [Traversal.refill, step]
  split
  · rename_i hempty
    rw [Bool.and_eq_true, List.isEmpty_iff] at hempty
    refine ⟨h.fetch hempty.1 s, ?_⟩
    intro hnil
    have hfetched : s.scan t.table t.range t.lastKey t.direction t.batchSize = [] := hnil
    have hsize := h.size
    simpa [hfetched] using hsize
  · rename_i hheld
    refine ⟨by simpa using h, ?_⟩
    intro hnil
    simpa [hnil] using hheld

/-- The first entry of the batch is handed out. -/
theorem Account.hand {e : Entry} {batch : List Entry} (h : t.Account reads handed)
    (hbatch : t.batch = e :: batch) :
    Account { t with batch, lastKey := some e.1 } reads (handed ++ [e]) := by
  have hsplit : handed ++ t.batch = (handed ++ [e]) ++ batch := by
    rw [hbatch, List.append_assoc, List.singleton_append]
  have hordered := h.ordered
  have hwithin := h.within
  have hcovered := h.covered
  rw [hsplit] at hordered hwithin hcovered
  constructor
  case free => exact h.free
  case size => exact h.size
  case ordered => exact hordered
  case within => exact hwithin
  case last => simp
  case held => exact fun e' he' => h.held e' (hbatch ▸ List.mem_cons_of_mem _ he')
  case covered => exact hcovered

/-- What a call does: it hands out an entry of the store that was read last, or there is nothing
to be handed out any more. -/
theorem Account.next (h : t.Account reads handed) (s : Store) :
    (t.next s).2.Account (reads ++ (t.step s).read.toList)
        (handed ++ (t.step s).entry.toList) ∧
      (∀ e ∈ (t.step s).entry, ∃ s', (reads ++ (t.step s).read.toList).getLast? = some s' ∧
        e ∈ s'.tableEntries t.table) ∧
      ((t.step s).entry = none → (t.next s).2.batch = [] ∧ (t.next s).2.exhausted) := by
  obtain ⟨hrefill, hended⟩ := h.refill s
  have htable : (t.refill s).table = t.table := by
    rw [Traversal.refill]
    split <;> rfl
  have hentry : (t.step s).entry = (t.next s).1 := rfl
  rw [hentry, Traversal.next]
  cases hbatch : (t.refill s).batch with
  | nil =>
      simp only [Option.toList_none, List.append_nil]
      refine ⟨hrefill, ?_, fun _ => ⟨hbatch, hended hbatch⟩⟩
      intro _ he
      cases he
  | cons e batch =>
      refine ⟨hrefill.hand hbatch, ?_, ?_⟩
      · rintro _ ⟨⟩
        rw [← htable]
        exact hrefill.held e (hbatch ▸ List.mem_cons_self)
      · intro hnone
        cases hnone

end Account

/-! ## Runs -/

/-- A traversal that has come to its end stays there. -/
theorem next_of_ended (hbatch : t.batch = []) (hexhausted : t.exhausted) (s : Store) :
    t.next s = (none, t) := by
  have hrefill : t.refill s = t := by
    rw [Traversal.refill, hexhausted]
    simp
  rw [Traversal.next, hrefill]
  simp only [hbatch]

/-- What holds of a traversal after the calls `past`. -/
structure Follows (t : Traversal) (past : List Step) : Prop where
  account : t.Account (reads past) (handed past)
  ended : none ∈ past.map Step.entry → t.batch = [] ∧ t.exhausted

theorem Follows.next {past : List Step} (h : t.Follows past) (s : Store) :
    (t.next s).2.Follows (past ++ [t.step s]) := by
  obtain ⟨haccount, -, hended⟩ := h.account.next s
  constructor
  case account =>
    rw [reads_append, handed_append]
    exact haccount
  case ended =>
    intro hnone
    rw [List.map_append, List.mem_append] at hnone
    rcases hnone with hnone | hnone
    · obtain ⟨hbatch, hexhausted⟩ := h.ended hnone
      rw [next_of_ended hbatch hexhausted]
      exact ⟨hbatch, hexhausted⟩
    · exact hended (List.mem_singleton.mp hnone).symm

theorem Follows.walk {past : List Step} (h : t.Follows past) (stores : List Store) :
    (t.walk stores).Follows (past ++ t.steps stores) := by
  induction stores generalizing t past with
  | nil => simpa [Traversal.walk, steps] using h
  | cons s stores ih =>
      have hrest := ih (h.next s)
      rwa [List.append_assoc, List.singleton_append] at hrest

theorem next_keeps (t : Traversal) (s : Store) : (t.next s).2.table = t.table ∧
    (t.next s).2.range = t.range ∧ (t.next s).2.direction = t.direction := by
  have hrefill : (t.refill s).table = t.table ∧ (t.refill s).range = t.range ∧
      (t.refill s).direction = t.direction := by
    rw [Traversal.refill]
    split <;> exact ⟨rfl, rfl, rfl⟩
  rw [Traversal.next]
  cases (t.refill s).batch with
  | nil => exact hrefill
  | cons e batch => exact hrefill

theorem walk_keeps (t : Traversal) (stores : List Store) :
    (t.walk stores).table = t.table ∧ (t.walk stores).range = t.range ∧
      (t.walk stores).direction = t.direction := by
  induction stores generalizing t with
  | nil => exact ⟨rfl, rfl, rfl⟩
  | cons s stores ih =>
      obtain ⟨htable, hrange, hdirection⟩ := ih (t.next s).2
      obtain ⟨htable', hrange', hdirection'⟩ := t.next_keeps s
      exact ⟨htable.trans htable', hrange.trans hrange', hdirection.trans hdirection'⟩

/-- If the store stays what it is, the calls hand out one entry after the other. -/
theorem At.walk_unchanged {s : Store} {rest : List Entry} (h : t.At s rest) {stores : List Store}
    (hsame : ∀ s' ∈ stores, s' = s) :
    ((t.walk stores).step s).entry = rest[stores.length]? := by
  induction stores generalizing t rest with
  | nil =>
      cases rest with
      | nil => exact h.next_nil.1
      | cons e rest => exact h.next_cons.1
  | cons s' stores ih =>
      obtain rfl := hsame s' List.mem_cons_self
      have hstores : ∀ s'' ∈ stores, s'' = s' :=
        fun s'' hs'' => hsame s'' (List.mem_cons_of_mem _ hs'')
      cases rest with
      | nil => exact ih h.next_nil.2 hstores
      | cons e rest => exact ih h.next_cons.2 hstores

/-- A call of a walk, after calls that found the stores `seen`, finds the store `s`.  The keys
handed out so far come one after the other in scan direction.  The entry that the call hands out
lies in the range, and the store that was read last had it.  After a call that handed out nothing
the others do not either.  When nothing is handed out, every key of the range that was in all the
stores read has been.  If the store has never changed, the entries of the range are handed out in
order. -/
theorem walk_hands_out_range {table : String} (hfree : Layout.ZeroFree table) (range : KeyRange)
    (direction : Direction) (batchSize : Nat) (seen : List Store) (s : Store) :
    let first := start table range direction batchSize
    let past := first.steps seen
    let call := (first.walk seen).step s
    ((handed (past ++ [call])).Pairwise fun a b => direction.Before a.1 b.1) ∧
      (∀ e, call.entry = some e → range.contains e.1 ∧
        ∃ s', (reads (past ++ [call])).getLast? = some s' ∧ e ∈ s'.tableEntries table) ∧
      (none ∈ past.map Step.entry → call.entry = none) ∧
      (call.entry = none → ∀ k, range.contains k →
        (∀ s' ∈ reads (past ++ [call]), ∃ v, (k, v) ∈ s'.tableEntries table) →
          ∃ v, (k, v) ∈ handed past) ∧
      ((∀ s' ∈ seen, s' = s) →
        call.entry = (s.visible table range direction)[seen.length]?) := by
  intro first past call
  obtain ⟨htable, hrange, hdirection⟩ := first.walk_keeps seen
  obtain ⟨-, hrange', hdirection'⟩ := (first.walk seen).next_keeps s
  have hstart : first.Follows [] := ⟨account_start hfree range direction batchSize, nofun⟩
  have hbefore : (first.walk seen).Follows past := hstart.walk seen
  have hafter := hbefore.next s
  obtain ⟨-, hsource, hended⟩ := hbefore.account.next s
  refine ⟨?_, ?_, ?_, ?_, ?_⟩
  · have hordered := (List.pairwise_append.mp hafter.account.ordered).1
    rwa [hdirection', hdirection] at hordered
  · intro e he
    constructor
    · have hmem : e ∈ handed (past ++ [call]) := by simp [handed_append, he]
      have hwithin := hafter.account.within e (List.mem_append_left _ hmem)
      rwa [hrange', hrange] at hwithin
    · rw [reads_append, ← show _ = table from htable]
      exact hsource e he
  · intro hnone
    obtain ⟨hbatch, hexhausted⟩ := hbefore.ended hnone
    show ((first.walk seen).next s).1 = none
    rw [next_of_ended hbatch hexhausted]
  · intro hnone k hk hall
    obtain ⟨hbatch, hexhausted⟩ := hended hnone
    have hcovered := hafter.account.covered k
    rw [hrange', hrange, ((first.walk seen).next_keeps s).1, htable, hbatch, hexhausted] at hcovered
    rcases hcovered hk hall with ⟨v, hv⟩ | ⟨hopen, -⟩
    · rw [List.append_nil, handed_append, hnone] at hv
      exact ⟨v, by simpa using hv⟩
    · cases hopen
  · exact (at_start hfree s range direction batchSize).walk_unchanged

/-- Two calls hand out `a` and `c`, with `b` gone and `0` put in front in between; a third one
comes to the end.  The key `c` was there all the time. -/
theorem walk_hands_out_range_shrinking :
    let seen := [Store.threeKeys, Store.threeKeys.erase (Layout.storedKey "t" [0x62])]
    let s := (Store.empty.insert (Layout.storedKey "t" [0x30]) []).insert
      (Layout.storedKey "t" [0x63]) []
    let first := start "t" .all .forward 1
    Layout.ZeroFree "t" ∧ ((first.walk seen).step s).entry = none ∧
      ∃ v, ([0x63], v) ∈ handed (first.steps seen) := by
  intro seen s first
  have hfree : Layout.ZeroFree "t" := by decide +kernel
  have hnone : ((first.walk seen).step s).entry = none := by decide
  obtain ⟨-, -, -, hcovered, -⟩ := walk_hands_out_range hfree .all .forward 1 seen s
  refine ⟨hfree, hnone, hcovered hnone [0x63] rfl ?_⟩
  have hreads : reads (first.steps seen ++ [(first.walk seen).step s]) = seen ++ [s] := rfl
  rw [hreads]
  intro s' hs'
  have hmem : ([0x63], []) ∈ s'.tableEntries "t" := by
    revert s'
    decide
  exact ⟨[], hmem⟩

end Traversal
end OrderedQuery
