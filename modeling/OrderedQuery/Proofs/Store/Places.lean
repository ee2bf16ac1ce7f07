import OrderedQuery.Store.EntryCursor
import OrderedQuery.Proofs.Store.Scan

/-!
# Entry cursors are places in a list

The entries of a range form a list in which keys ascend, and a cursor over the range stands at
one place of it or at none.  `EntryCursor.Move.place` says where a move leads in a list, and
`EntryCursor.answers_eq_entriesAt` that a cursor answers as the places do.

The list knows nothing of batches.  By the invariant `EntryCursor.At` the batch in hand is a
segment of the list, and a move past one of its ends fetches the segment next to it.
-/

namespace OrderedQuery

theorem Ascending.exists_split {entries : List Entry} (h : Ascending entries) (key : Bytes) :
    ∃ front rest, entries = front ++ rest ∧ (∀ e ∈ front, ¬ key ≤ e.1) ∧
      ∀ e ∈ rest, key ≤ e.1 := by
  induction entries with
  | nil => exact ⟨[], [], rfl, nofun, nofun⟩
  | cons e entries ih =>
      obtain ⟨hfirst, hentries⟩ := List.pairwise_cons.mp h
      by_cases hkey : key ≤ e.1
      · refine ⟨[], e :: entries, rfl, nofun, ?_⟩
        intro e' he'
        rcases List.mem_cons.mp he' with rfl | he'
        · exact hkey
        · exact List.le_trans hkey (List.le_of_lt (hfirst e' he'))
      · obtain ⟨front, rest, rfl, hfront, hrest⟩ := ih hentries
        refine ⟨e :: front, rest, rfl, ?_, hrest⟩
        intro e' he'
        rcases List.mem_cons.mp he' with rfl | he'
        · exact hkey
        · exact hfront e' he'

namespace EntryCursor

/-- A move of a cursor. -/
inductive Move where
  | seekFirst
  | seekLast
  | seek (key : Bytes)
  | next
  | prev

/-- Carries out a move. -/
def move (c : EntryCursor) (s : Store) : Move → EntryCursor
  | .seekFirst => c.seekFirst s
  | .seekLast => c.seekLast s
  | .seek key => c.seek s key
  | .next => c.next s
  | .prev => c.prev s

/-- The entries that a cursor stands at after each of a list of moves. -/
def answers (s : Store) : EntryCursor → List Move → List (Option Entry)
  | _, [] => []
  | c, m :: moves => (c.move s m).current? :: answers s (c.move s m) moves

/-! ## Places -/

/-- The place `i` in a list, if the list is long enough. -/
def placeAt (entries : List Entry) (i : Nat) : Option Nat :=
  if i < entries.length then some i else none

/-- The place in front of `i`, if there is one. -/
def placeBefore : Nat → Option Nat
  | 0 => none
  | i + 1 => some i

/-- The place in a list that a move leads to. -/
def Move.place (entries : List Entry) : Move → Option Nat → Option Nat
  | seekFirst, _ => placeAt entries 0
  | seekLast, _ => placeBefore entries.length
  | seek key, _ => entries.findIdx? fun e => decide (key ≤ e.1)
  | next, none => placeAt entries 0
  | next, some i => placeAt entries (i + 1)
  | prev, none => placeBefore entries.length
  | prev, some i => placeBefore i

/-- The entries at the places that a list of moves leads to. -/
def entriesAt (entries : List Entry) : Option Nat → List Move → List (Option Entry)
  | _, [] => []
  | place, m :: moves =>
      (m.place entries place).bind (entries[·]?) :: entriesAt entries (m.place entries place) moves

theorem findIdx?_append_eq_placeAt {front rest : List Entry} {key : Bytes}
    (hfront : ∀ e ∈ front, ¬ key ≤ e.1) (hrest : ∀ e ∈ rest, key ≤ e.1) :
    ((front ++ rest).findIdx? fun e => decide (key ≤ e.1)) =
      placeAt (front ++ rest) front.length := by
  have hnone : (front.findIdx? fun e => decide (key ≤ e.1)) = none := by
    rw [List.findIdx?_eq_none_iff]
    intro e he
    exact decide_eq_false (hfront e he)
  rw [List.findIdx?_append, hnone, Option.none_or, placeAt]
  cases rest with
  | nil => simp
  | cons e rest =>
      have hkey : key ≤ e.1 := hrest e List.mem_cons_self
      simp [List.findIdx?_cons, hkey]

/-! ## Batches are segments of the list -/

/-- The entries of the range of a cursor. -/
def listed (c : EntryCursor) (s : Store) : List Entry :=
  s.visible c.table c.range .forward

/-- The cursor stands at a place of the list. -/
def StandsAt (c : EntryCursor) (entries : List Entry) : Option Nat → Prop
  | none => c.position = none
  | some i => ∃ front back p, entries = front ++ c.batch ++ back ∧ c.position = some p ∧
      p < c.batch.length ∧ i = front.length + p

/-- The cursor stands at a place of `entries`, which are those of its range. -/
structure At (c : EntryCursor) (s : Store) (entries : List Entry) (place : Option Nat) :
    Prop where
  free : Layout.ZeroFree c.table
  size : 0 < c.batchSize
  lists : c.listed s = entries
  stands : c.StandsAt entries place

variable {c : EntryCursor} {s : Store}

theorem current?_of_standsAt {entries : List Entry} {place : Option Nat}
    (h : c.StandsAt entries place) : c.current? = place.bind (entries[·]?) := by
  cases place with
  | none =>
      have hposition : c.position = none := h
      rw [current?, hposition]
      rfl
  | some i =>
      obtain ⟨front, back, p, rfl, hposition, hp, rfl⟩ := h
      rw [current?, hposition]
      show c.batch[p]? = (front ++ c.batch ++ back)[front.length + p]?
      rw [List.append_assoc, List.getElem?_append_right (Nat.le_add_right _ _),
        Nat.add_sub_cancel_left, List.getElem?_append_left hp]

/-- A batch from behind the entries `front`. -/
theorem landFirst_standsAt {front rest : List Entry} (hsize : 0 < c.batchSize) :
    (c.landFirst (rest.take c.batchSize)).StandsAt (front ++ rest)
      (placeAt (front ++ rest) front.length) := by
  cases rest with
  | nil =>
      rw [List.append_nil, placeAt, if_neg (Nat.lt_irrefl _), List.take_nil]
      rfl
  | cons e rest =>
      have hlong : front.length < (front ++ e :: rest).length := by simp
      have htake : 0 < ((e :: rest).take c.batchSize).length := by
        rw [List.length_take, List.length_cons]
        omega
      rw [placeAt, if_pos hlong]
      refine ⟨front, (e :: rest).drop c.batchSize, 0, ?_, ?_, htake, rfl⟩
      · show front ++ e :: rest = front ++ (e :: rest).take c.batchSize ++ _
        rw [List.append_assoc, List.take_append_drop]
      · have hne : ((e :: rest).take c.batchSize).isEmpty = false := by
          rw [List.isEmpty_eq_false_iff]
          exact List.ne_nil_of_length_pos htake
        simp [landFirst, hne]

/-- A batch from in front of the entries `back`. -/
theorem landLast_standsAt {front back : List Entry} (hsize : 0 < c.batchSize) :
    (c.landLast (front.reverse.take c.batchSize).reverse).StandsAt (front ++ back)
      (placeBefore front.length) := by
  rw [List.reverse_take, List.reverse_reverse, List.length_reverse]
  cases hlength : front.length with
  | zero =>
      obtain rfl := List.eq_nil_of_length_eq_zero hlength
      simp [StandsAt, placeBefore, landLast]
  | succ i =>
      have hdrop : (front.drop (i + 1 - c.batchSize)).length = min c.batchSize (i + 1) := by
        rw [List.length_drop, hlength]
        omega
      have hne : (front.drop (i + 1 - c.batchSize)).isEmpty = false := by
        rw [List.isEmpty_eq_false_iff]
        exact List.ne_nil_of_length_pos (by omega)
      refine ⟨front.take (i + 1 - c.batchSize), back,
        (front.drop (i + 1 - c.batchSize)).length - 1, ?_, ?_, ?_, ?_⟩
      · show front ++ back = front.take _ ++ front.drop _ ++ back
        rw [List.take_append_drop]
      · simp [landLast, hne]
      · show _ < (front.drop (i + 1 - c.batchSize)).length
        omega
      · rw [List.length_take, hdrop, hlength]
        omega

/-! ## Fetching -/

/-- The batch behind the entries `done`. -/
theorem fetch_forward {done rest : List Entry} (hfree : Layout.ZeroFree c.table)
    (h : c.listed s = done ++ rest) :
    c.fetch s c.range (done.getLast?.map Prod.fst) .forward = rest.take c.batchSize := by
  show s.scan c.table c.range _ .forward c.batchSize = _
  rw [Store.scan_eq_take hfree, Store.visible_after h]

/-- The batch in front of the entries `done`. -/
theorem fetch_backward {front done : List Entry} (hfree : Layout.ZeroFree c.table)
    (h : c.listed s = front ++ done) :
    c.fetch s c.range (done.head?.map Prod.fst) .backward =
      (front.reverse.take c.batchSize).reverse := by
  have hvisible : s.visible c.table c.range .backward = done.reverse ++ front.reverse := by
    rw [← List.reverse_append, ← h]
    rfl
  show (s.scan c.table c.range _ .backward c.batchSize).reverse = _
  rw [Store.scan_eq_take hfree, ← List.getLast?_reverse, Store.visible_after hvisible]

/-- The lower bound of what lies in a range from `key` on. -/
def raise (low : Bound) (key : Bytes) : Bound :=
  match low with
  | .included k => if key ≤ k then .included k else .included key
  | .excluded k => if key ≤ k then .excluded k else .included key
  | .unbounded => .included key

theorem raise_admitsAbove (low : Bound) (key k : Bytes) :
    (raise low key).admitsAbove k = (low.admitsAbove k && decide (key ≤ k)) := by
  rw [Bool.eq_iff_iff, Bool.and_eq_true, decide_eq_true_eq]
  cases low with
  | unbounded => simp [raise, Bound.admitsAbove]
  | included m =>
      simp only [raise]
      split
      · rename_i hkey
        simp only [Bound.admitsAbove, decide_eq_true_eq]
        exact ⟨fun hm => ⟨hm, List.le_trans hkey hm⟩, And.left⟩
      · rename_i hkey
        simp only [Bound.admitsAbove, decide_eq_true_eq]
        exact ⟨fun hk => ⟨List.le_trans (List.le_of_lt (List.not_le.mp hkey)) hk, hk⟩, And.right⟩
  | excluded m =>
      simp only [raise]
      split
      · rename_i hkey
        simp only [Bound.admitsAbove, decide_eq_true_eq]
        exact ⟨fun hm => ⟨hm, List.le_trans hkey (List.le_of_lt hm)⟩, And.left⟩
      · rename_i hkey
        simp only [Bound.admitsAbove, decide_eq_true_eq]
        exact ⟨fun hk => ⟨Std.lt_of_lt_of_le (List.not_le.mp hkey) hk, hk⟩, And.right⟩

/-- The batch from a key on. -/
theorem fetch_raised (hfree : Layout.ZeroFree c.table) (key : Bytes) :
    c.fetch s ⟨raise c.range.low key, c.range.high⟩ none .forward =
      ((c.listed s).filter fun e => decide (key ≤ e.1)).take c.batchSize := by
  show s.scan c.table _ none .forward c.batchSize = _
  rw [Store.scan_eq_take hfree, listed, Store.visible_eq_filter, Store.visible_eq_filter,
    List.filter_filter]
  congr 2
  funext e
  show ((raise c.range.low key).admitsAbove e.1 && _) = _
  rw [raise_admitsAbove, Bool.and_comm (c.range.low.admitsAbove e.1), Bool.and_assoc]
  rfl

/-! ## Moves -/

variable {entries : List Entry} {place : Option Nat}

theorem At.landFirst (h : c.At s entries place) {front rest : List Entry}
    (hsplit : entries = front ++ rest) :
    (c.landFirst (rest.take c.batchSize)).At s entries (placeAt entries front.length) := by
  refine ⟨h.free, h.size, h.lists, ?_⟩
  rw [hsplit]
  exact landFirst_standsAt h.size

theorem At.landLast (h : c.At s entries place) {front back : List Entry}
    (hsplit : entries = front ++ back) :
    (c.landLast (front.reverse.take c.batchSize).reverse).At s entries
      (placeBefore front.length) := by
  refine ⟨h.free, h.size, h.lists, ?_⟩
  rw [hsplit]
  exact landLast_standsAt h.size

theorem At.seekFirst (h : c.At s entries place) :
    (c.seekFirst s).At s entries (placeAt entries 0) := by
  have hfetch : c.fetch s c.range none .forward = entries.take c.batchSize :=
    @fetch_forward c s [] entries h.free h.lists
  rw [EntryCursor.seekFirst, hfetch]
  exact @At.landFirst c s entries place h [] entries rfl

theorem At.seekLast (h : c.At s entries place) :
    (c.seekLast s).At s entries (placeBefore entries.length) := by
  have hsplit : entries = entries ++ [] := (List.append_nil _).symm
  have hfetch : c.fetch s c.range none .backward = (entries.reverse.take c.batchSize).reverse :=
    @fetch_backward c s entries [] h.free (h.lists.trans hsplit)
  rw [EntryCursor.seekLast, hfetch]
  exact h.landLast hsplit

theorem At.seek (h : c.At s entries place) (key : Bytes) :
    (c.seek s key).At s entries (entries.findIdx? fun e => decide (key ≤ e.1)) := by
  have hascending : Ascending entries := by
    rw [← h.lists]
    exact (s.ascending_tableEntries c.table).filter _
  obtain ⟨front, rest, hsplit, hfront, hrest⟩ := hascending.exists_split key
  have hfetch : c.fetch s ⟨raise c.range.low key, c.range.high⟩ none .forward =
      rest.take c.batchSize := by
    rw [fetch_raised h.free, h.lists, hsplit, List.filter_append, List.filter_eq_nil_iff.mpr,
      List.filter_eq_self.mpr, List.nil_append]
    · exact fun e he => decide_eq_true (hrest e he)
    · exact fun e he => by simpa using hfront e he
  have hplace := findIdx?_append_eq_placeAt hfront hrest
  rw [← hsplit] at hplace
  rw [hplace]
  show (c.landFirst (c.fetch s ⟨raise c.range.low key, c.range.high⟩ none .forward)).At s _ _
  rw [hfetch]
  exact h.landFirst hsplit

theorem At.next (h : c.At s entries place) :
    (c.next s).At s entries (Move.next.place entries place) := by
  cases place with
  | none =>
      have hposition : c.position = none := h.stands
      rw [EntryCursor.next, hposition]
      exact h.seekFirst
  | some i =>
      obtain ⟨front, back, p, hsplit, hposition, hp, rfl⟩ := h.stands
      rw [EntryCursor.next, hposition]
      show (if p + 1 < c.batch.length then _ else _ : EntryCursor).At s entries
        (placeAt entries (front.length + p + 1))
      split
      · rename_i hinside
        have hlong : front.length + p + 1 < entries.length := by
          rw [hsplit, List.length_append, List.length_append]
          omega
        rw [placeAt, if_pos hlong]
        exact ⟨h.free, h.size, h.lists, front, back, p + 1, hsplit, rfl, hinside, rfl⟩
      · have hlast : (front ++ c.batch).length = front.length + p + 1 := by
          rw [List.length_append]
          omega
        have hne : c.batch ≠ [] := List.ne_nil_of_length_pos (by omega)
        have hresume : (front ++ c.batch).getLast? = c.batch.getLast? := by
          rw [List.getLast?_append, List.getLast?_eq_some_getLast hne]
          rfl
        have hfetch := fetch_forward h.free (h.lists.trans hsplit)
        rw [hresume] at hfetch
        simp only [hfetch, ← hlast]
        exact h.landFirst hsplit

theorem At.prev (h : c.At s entries place) :
    (c.prev s).At s entries (Move.prev.place entries place) := by
  cases place with
  | none =>
      have hposition : c.position = none := h.stands
      rw [EntryCursor.prev, hposition]
      exact h.seekLast
  | some i =>
      obtain ⟨front, back, p, hsplit, hposition, hp, rfl⟩ := h.stands
      rw [EntryCursor.prev, hposition]
      show (if 0 < p then _ else _ : EntryCursor).At s entries (placeBefore (front.length + p))
      split
      · rename_i hinside
        obtain ⟨p, rfl⟩ : ∃ q, p = q + 1 := ⟨p - 1, by omega⟩
        exact ⟨h.free, h.size, h.lists, front, back, p, hsplit, rfl, Nat.lt_of_succ_lt hp, rfl⟩
      · obtain rfl : p = 0 := by omega
        have hne : c.batch ≠ [] := List.ne_nil_of_length_pos hp
        have hresume : (c.batch ++ back).head? = c.batch.head? := by
          rw [List.head?_append, List.head?_eq_some_head hne]
          rfl
        rw [List.append_assoc] at hsplit
        have hfetch := fetch_backward h.free (h.lists.trans hsplit)
        rw [hresume] at hfetch
        simp only [hfetch]
        exact h.landLast hsplit

/-- A move leads a cursor to the place that it leads to in the list. -/
theorem At.move (h : c.At s entries place) (m : Move) :
    (c.move s m).At s entries (m.place entries place) := by
  cases m with
  | seekFirst => exact h.seekFirst
  | seekLast => exact h.seekLast
  | seek key => exact h.seek key
  | next => exact h.next
  | prev => exact h.prev

theorem At.answers (h : c.At s entries place) (moves : List Move) :
    c.answers s moves = entriesAt entries place moves := by
  induction moves generalizing c place with
  | nil => rfl
  | cons m moves ih =>
      have hmoved := h.move m
      rw [EntryCursor.answers, entriesAt, current?_of_standsAt hmoved.stands, ih hmoved]

/-- A cursor that starts without a position answers any list of moves as the places in the list
of the entries of its range do, whatever the size of its batches. -/
theorem answers_eq_entriesAt {table : String} (hfree : Layout.ZeroFree table) (s : Store)
    (range : KeyRange) (batchSize : Nat) (moves : List Move) :
    (start table range batchSize).answers s moves =
      entriesAt ((s.tableEntries table).filter fun e => range.contains e.1) none moves := by
  have hsize : 0 < max batchSize 1 := by omega
  have hstart : (start table range batchSize).At s
      ((s.tableEntries table).filter fun e => range.contains e.1) none :=
    ⟨hfree, hsize, rfl, rfl⟩
  exact hstart.answers moves

/-- Back and forth over three entries of which one is in hand at a time. -/
theorem answers_eq_entriesAt_one_in_hand :
    Layout.ZeroFree "t" ∧
      (start "t" ⟨.excluded [0x61], .unbounded⟩ 0).answers Store.threeKeys
          [.seek [0x61], .next, .next, .prev, .prev, .prev, .seek [0x64]] =
        [some ([0x62], []), some ([0x63], []), none, some ([0x63], []), some ([0x62], []), none,
          none] := by
  have hfree : Layout.ZeroFree "t" := by decide +kernel
  exact ⟨hfree, (answers_eq_entriesAt hfree _ _ _ _).trans (by decide)⟩

end EntryCursor
end OrderedQuery
