import Mathlib.Data.List.Destutter
import Mathlib.Data.List.Sort
import OrderedQuery.Plan.Sorting
import OrderedQuery.Proofs.Key.Order

/-!
# Sorting by insertion

The rows a sort holds are the first rows of the stable sort of all rows it has taken.  When
equal rows are suppressed, only the first of every run of equal rows counts.

The argument is carried out for a comparison of any type.  `placeBy` puts an element behind
those that are not above it, as a sort does; it commutes with the insertion in front of the
elements that are not below, which is how a stable sort is built up from the other side.
-/

namespace OrderedQuery
namespace Sorting

section Insertion

variable {α : Type} (cmp : α → α → Ordering)

/-- Puts an element behind those that are not above it. -/
def placeBy (x : α) (held : List α) : List α :=
  held.takeWhile (fun r => (cmp r x).isLE) ++ x :: held.dropWhile fun r => (cmp r x).isLE

/-- Puts an element in its place unless an equal one is there. -/
def joinBy (x : α) : List α → List α
  | [] => [x]
  | r :: held =>
      if (cmp r x).isLE then
        if (cmp r x).isEq then r :: held else r :: joinBy x held
      else x :: r :: held

/-- The first element of every run of equal ones. -/
def firstsBy (held : List α) : List α :=
  held.destutter fun a b => cmp a b ≠ .eq

/-- The stable sort. -/
def sortBy (xs : List α) : List α :=
  xs.mergeSort fun a b => (cmp a b).isLE

/-- The sorted elements that a policy retains. -/
def retainedBy (policy : DuplicatePolicy) (xs : List α) : List α :=
  match policy with
  | .preserve => sortBy cmp xs
  | .suppress => firstsBy cmp (sortBy cmp xs)

/-- An equal element is held. -/
def holdsEqualBy (x : α) (held : List α) : Bool :=
  (held.takeWhile fun r => (cmp r x).isLE).getLast?.any fun r => (cmp r x).isEq

/-- Takes one more element. -/
def insertBy (policy : DuplicatePolicy) (limit : Nat) (held : List α) (x : α) : List α :=
  if policy = .suppress ∧ holdsEqualBy cmp x held then held
  else (placeBy cmp x held).take limit

/-- Insertion in front of the elements that are not below. -/
abbrev preplaceBy (x : α) (held : List α) : List α :=
  held.orderedInsert (fun a b => (cmp a b).isLE = true) x

variable {cmp}

theorem placeBy_nil (x : α) : placeBy cmp x [] = [x] := rfl

theorem placeBy_cons_of_le {x r : α} (h : (cmp r x).isLE) (held : List α) :
    placeBy cmp x (r :: held) = r :: placeBy cmp x held := by
  simp [placeBy, h]

theorem placeBy_cons_of_not_le {x r : α} (h : ¬(cmp r x).isLE) (held : List α) :
    placeBy cmp x (r :: held) = x :: r :: held := by
  simp [placeBy, h]

/-- What is beyond the limit never comes back. -/
theorem take_placeBy_take (x : α) (limit : Nat) (held : List α) :
    (placeBy cmp x (held.take limit)).take limit = (placeBy cmp x held).take limit := by
  induction held generalizing limit with
  | nil => rw [List.take_nil]
  | cons r held ih =>
      cases limit with
      | zero => rw [List.take_zero, List.take_zero]
      | succ limit =>
          rw [List.take_succ_cons]
          by_cases h : (cmp r x).isLE
          · rw [placeBy_cons_of_le h, placeBy_cons_of_le h, List.take_succ_cons,
              List.take_succ_cons, ih]
          · rw [placeBy_cons_of_not_le h, placeBy_cons_of_not_le h, List.take_succ_cons,
              List.take_succ_cons]
            cases limit with
            | zero => rfl
            | succ limit =>
                rw [List.take_succ_cons, List.take_succ_cons, List.take_take,
                  Nat.min_eq_left (Nat.le_succ limit)]

theorem take_joinBy_take (x : α) (limit : Nat) (held : List α) :
    (joinBy cmp x (held.take limit)).take limit = (joinBy cmp x held).take limit := by
  induction held generalizing limit with
  | nil => rw [List.take_nil]
  | cons r held ih =>
      cases limit with
      | zero => rw [List.take_zero, List.take_zero]
      | succ limit =>
          rw [List.take_succ_cons, joinBy, joinBy]
          split
          · split
            · rw [List.take_succ_cons, List.take_succ_cons, List.take_take, Nat.min_self]
            · rw [List.take_succ_cons, List.take_succ_cons, ih]
          · rw [List.take_succ_cons, List.take_succ_cons]
            cases limit with
            | zero => rfl
            | succ limit =>
                rw [List.take_succ_cons, List.take_succ_cons, List.take_take,
                  Nat.min_eq_left (Nat.le_succ limit)]

theorem preplaceBy_append {a : α} {before behind : List α}
    (hbefore : ∀ b ∈ before, ¬(cmp a b).isLE) (hbehind : ∀ b ∈ behind, (cmp a b).isLE) :
    preplaceBy cmp a (before ++ behind) = before ++ a :: behind := by
  induction before with
  | nil =>
      cases behind with
      | nil => rfl
      | cons b behind =>
          rw [List.nil_append, List.nil_append, preplaceBy, List.orderedInsert_cons,
            if_pos (hbehind b List.mem_cons_self)]
  | cons b before ih =>
      have hrest := ih fun c hc => hbefore c (List.mem_cons_of_mem b hc)
      rw [List.cons_append, preplaceBy, List.orderedInsert_cons,
        if_neg (hbefore b List.mem_cons_self), ← preplaceBy, hrest, List.cons_append]

theorem lt_of_isLE_of_ne {a b : α} (hle : (cmp a b).isLE) (hne : cmp a b ≠ .eq) :
    cmp a b = .lt := by
  revert hle hne
  cases cmp a b <;> simp

theorem joinBy_cons_of_lt {x r : α} (h : cmp r x = .lt) (held : List α) :
    joinBy cmp x (r :: held) = r :: joinBy cmp x held := by
  rw [joinBy, h]
  rfl

theorem joinBy_cons_of_eq {x r : α} (h : cmp r x = .eq) (held : List α) :
    joinBy cmp x (r :: held) = r :: held := by
  rw [joinBy, h]
  rfl

theorem joinBy_cons_of_gt {x r : α} (h : cmp r x = .gt) (held : List α) :
    joinBy cmp x (r :: held) = x :: r :: held := by
  rw [joinBy, h]
  rfl

variable [Std.TransCmp cmp]

variable (cmp) in
theorem compare_swap (a b : α) : cmp b a = (cmp a b).swap :=
  Std.OrientedCmp.eq_swap

theorem isLE_of_not_isLE {a b : α} (h : ¬(cmp a b).isLE) : (cmp b a).isLE := by
  rw [compare_swap cmp a b]
  revert h
  cases cmp a b <;> simp

theorem not_isLE_trans {a b c : α} (hab : ¬(cmp b a).isLE) (hbc : ¬(cmp c b).isLE) :
    ¬(cmp c a).isLE := by
  intro h
  exact hab (Std.TransCmp.isLE_trans (isLE_of_not_isLE hbc) h)

/-- Insertions from the two sides do not get in each other's way. -/
theorem placeBy_preplaceBy (x a : α) (held : List α) :
    placeBy cmp x (preplaceBy cmp a held) = preplaceBy cmp a (placeBy cmp x held) := by
  induction held with
  | nil =>
      rw [placeBy_nil, preplaceBy, preplaceBy, List.orderedInsert_nil,
        List.orderedInsert_cons]
      by_cases hax : (cmp a x).isLE
      · rw [if_pos hax, placeBy_cons_of_le hax, placeBy_nil]
      · rw [if_neg hax, placeBy_cons_of_not_le hax, List.orderedInsert_nil]
  | cons b held ih =>
      rw [preplaceBy] at ih ⊢
      by_cases hab : (cmp a b).isLE
      · rw [List.orderedInsert_cons, if_pos hab]
        by_cases hbx : (cmp b x).isLE
        · have hax : (cmp a x).isLE := Std.TransCmp.isLE_trans hab hbx
          rw [placeBy_cons_of_le hax, placeBy_cons_of_le hbx, preplaceBy,
            List.orderedInsert_cons, if_pos hab]
        · rw [placeBy_cons_of_not_le hbx, preplaceBy, List.orderedInsert_cons]
          by_cases hax : (cmp a x).isLE
          · rw [placeBy_cons_of_le hax, placeBy_cons_of_not_le hbx, if_pos hax]
          · rw [placeBy_cons_of_not_le hax, if_neg hax, List.orderedInsert_cons, if_pos hab]
      · rw [List.orderedInsert_cons, if_neg hab]
        by_cases hbx : (cmp b x).isLE
        · rw [placeBy_cons_of_le hbx, placeBy_cons_of_le hbx, ih, preplaceBy, preplaceBy,
            List.orderedInsert_cons, if_neg hab]
        · have hax : ¬(cmp a x).isLE := not_isLE_trans hbx hab
          rw [placeBy_cons_of_not_le hbx, placeBy_cons_of_not_le hbx, preplaceBy,
            List.orderedInsert_cons, if_neg hax, List.orderedInsert_cons, if_neg hab]

theorem foldl_placeBy_preplaceBy (a : α) (xs held : List α) :
    xs.foldl (fun h x => placeBy cmp x h) (preplaceBy cmp a held) =
      preplaceBy cmp a (xs.foldl (fun h x => placeBy cmp x h) held) := by
  induction xs generalizing held with
  | nil => rfl
  | cons x xs ih => rw [List.foldl_cons, List.foldl_cons, placeBy_preplaceBy, ih]

theorem sortBy_cons (a : α) (xs : List α) :
    sortBy cmp (a :: xs) = preplaceBy cmp a (sortBy cmp xs) := by
  have htrans (a b c : α) (hab : (cmp a b).isLE) (hbc : (cmp b c).isLE) : (cmp a c).isLE :=
    Std.TransCmp.isLE_trans hab hbc
  have htotal (a b : α) : (cmp a b).isLE || (cmp b a).isLE := by
    by_cases h : (cmp a b).isLE
    · simp [h]
    · simp [isLE_of_not_isLE h]
  obtain ⟨before, behind, hcons, htail, hbefore⟩ := List.mergeSort_cons htrans htotal a xs
  have hsorted := List.pairwise_mergeSort htrans htotal (a :: xs)
  rw [hcons] at hsorted
  have hbehind : ∀ b ∈ behind, (cmp a b).isLE :=
    (List.pairwise_cons.mp (List.pairwise_append.mp hsorted).2.1).1
  have hfront : ∀ b ∈ before, ¬(cmp a b).isLE := by
    intro b hb
    simpa using hbefore b hb
  rw [sortBy, hcons, sortBy, htail, preplaceBy_append hfront hbehind]

/-- Placing elements one after the other sorts them, and keeps equal ones in order. -/
theorem foldl_placeBy (xs : List α) :
    xs.foldl (fun h x => placeBy cmp x h) [] = sortBy cmp xs := by
  induction xs with
  | nil => rw [sortBy, List.mergeSort_nil, List.foldl_nil]
  | cons a xs ih =>
      have hsingle : placeBy cmp a [] = preplaceBy cmp a [] := rfl
      rw [List.foldl_cons, hsingle, foldl_placeBy_preplaceBy, ih, sortBy_cons]

theorem sortBy_concat (xs : List α) (x : α) :
    sortBy cmp (xs ++ [x]) = placeBy cmp x (sortBy cmp xs) := by
  rw [← foldl_placeBy, ← foldl_placeBy, List.foldl_append, List.foldl_cons, List.foldl_nil]

theorem pairwise_sortBy (xs : List α) :
    (sortBy cmp xs).Pairwise fun a b => (cmp a b).isLE := by
  refine List.pairwise_mergeSort (fun a b c => Std.TransCmp.isLE_trans) ?_ xs
  intro a b
  by_cases h : (cmp a b).isLE
  · simp [h]
  · simp [isLE_of_not_isLE h]

/-- The first elements of runs ascend strictly. -/
theorem pairwise_firstsBy {held : List α} (h : held.Pairwise fun a b => (cmp a b).isLE) :
    (firstsBy cmp held).Pairwise fun a b => cmp a b = .lt := by
  have hle := h.sublist (List.destutter_sublist (fun a b => cmp a b ≠ .eq) held)
  have hne := List.isChain_destutter (fun a b => cmp a b ≠ .eq) held
  have htrans : IsTrans α fun a b => cmp a b = .lt := ⟨fun a b c => Std.TransCmp.lt_trans⟩
  rw [← List.isChain_iff_pairwise, List.isChain_iff_getElem]
  intro i hi
  exact lt_of_isLE_of_ne (List.isChain_iff_getElem.mp hle.isChain i hi)
    (List.isChain_iff_getElem.mp hne i hi)

omit [Std.TransCmp cmp] in
theorem firstsBy_cons_cons_of_eq {a b : α} (h : cmp a b = .eq) (held : List α) :
    firstsBy cmp (a :: b :: held) = firstsBy cmp (a :: held) := by
  rw [firstsBy, List.destutter_cons_cons, if_neg (not_not.mpr h)]
  rfl

omit [Std.TransCmp cmp] in
theorem firstsBy_cons_cons_of_ne {a b : α} (h : cmp a b ≠ .eq) (held : List α) :
    firstsBy cmp (a :: b :: held) = a :: firstsBy cmp (b :: held) := by
  rw [firstsBy, List.destutter_cons_cons, if_pos h]
  rfl

theorem firstsBy_cons_eq_cons (cmp : α → α → Ordering) (a : α) (held : List α) :
    ∃ rest, firstsBy cmp (a :: held) = a :: rest := by
  induction held with
  | nil => exact ⟨[], rfl⟩
  | cons b held ih =>
      by_cases h : cmp a b = .eq
      · rw [firstsBy_cons_cons_of_eq h]
        exact ih
      · exact ⟨_, firstsBy_cons_cons_of_ne h held⟩

/-- An element that goes to the front begins a run of its own. -/
theorem firstsBy_placeBy_of_gt {x a : α} (h : cmp a x = .gt) (held : List α) :
    firstsBy cmp (placeBy cmp x (a :: held)) = joinBy cmp x (firstsBy cmp (a :: held)) := by
  have hne : cmp x a ≠ .eq := by
    rw [compare_swap cmp a x, h]
    decide
  obtain ⟨rest, hrest⟩ := firstsBy_cons_eq_cons cmp a held
  rw [placeBy_cons_of_not_le (by rw [h]; decide), firstsBy_cons_cons_of_ne hne, hrest,
    joinBy_cons_of_gt h]

theorem firstsBy_placeBy_cons (x a : α) (held : List α)
    (h : (a :: held).Pairwise fun a b => (cmp a b).isLE) :
    firstsBy cmp (placeBy cmp x (a :: held)) = joinBy cmp x (firstsBy cmp (a :: held)) := by
  by_cases hgt : cmp a x = .gt
  · exact firstsBy_placeBy_of_gt hgt held
  have hax : (cmp a x).isLE := Ordering.isLE_iff_ne_gt.mpr hgt
  induction held generalizing a with
  | nil =>
      have hsingle : firstsBy cmp [a] = [a] := rfl
      rw [placeBy_cons_of_le hax, placeBy_nil, hsingle]
      by_cases heq : cmp a x = .eq
      · rw [firstsBy_cons_cons_of_eq heq, joinBy_cons_of_eq heq, hsingle]
      · rw [firstsBy_cons_cons_of_ne heq, joinBy_cons_of_lt (lt_of_isLE_of_ne hax heq)]
        rfl
  | cons b held ih =>
      obtain ⟨hall, htail⟩ := List.pairwise_cons.mp h
      have hskip := h.sublist (List.Sublist.cons_cons a (List.sublist_cons_self b held))
      rw [placeBy_cons_of_le hax]
      by_cases hab : cmp a b = .eq
      · -- `b` belongs to the run of `a`, before and after `x` has been placed
        have hbx : (cmp b x).isLE := by
          rw [← Std.TransCmp.congr_left hab]
          exact hax
        rw [firstsBy_cons_cons_of_eq hab, placeBy_cons_of_le hbx,
          firstsBy_cons_cons_of_eq hab, ← placeBy_cons_of_le hax]
        exact ih a hskip hgt hax
      · have hlt : cmp a b = .lt := lt_of_isLE_of_ne (hall b List.mem_cons_self) hab
        rw [firstsBy_cons_cons_of_ne hab]
        by_cases heq : cmp a x = .eq
        · have hbx : ¬(cmp b x).isLE := by
            rw [← Std.TransCmp.congr_right heq, compare_swap cmp a b, hlt]
            decide
          rw [placeBy_cons_of_not_le hbx, firstsBy_cons_cons_of_eq heq,
            firstsBy_cons_cons_of_ne hab, joinBy_cons_of_eq heq]
        · rw [joinBy_cons_of_lt (lt_of_isLE_of_ne hax heq)]
          by_cases hbx : cmp b x = .gt
          · rw [← firstsBy_placeBy_of_gt hbx,
              placeBy_cons_of_not_le (by rw [hbx]; decide), firstsBy_cons_cons_of_ne heq]
          · have hle : (cmp b x).isLE := Ordering.isLE_iff_ne_gt.mpr hbx
            rw [← ih b htail hbx hle, placeBy_cons_of_le hle, firstsBy_cons_cons_of_ne hab]

/-- Placing an element and then keeping the first elements of runs is joining it to the first
elements of runs. -/
theorem firstsBy_placeBy (x : α) {held : List α}
    (h : held.Pairwise fun a b => (cmp a b).isLE) :
    firstsBy cmp (placeBy cmp x held) = joinBy cmp x (firstsBy cmp held) := by
  cases held with
  | nil => rfl
  | cons a held => exact firstsBy_placeBy_cons x a held h

/-- In a list that ascends strictly, the last element that is not above the new one tells
whether an equal one is there. -/
theorem joinBy_eq_ite (x : α) {held : List α} (h : held.Pairwise fun a b => cmp a b = .lt) :
    joinBy cmp x held = if holdsEqualBy cmp x held then held else placeBy cmp x held := by
  induction held with
  | nil => rfl
  | cons r held ih =>
      obtain ⟨hall, htail⟩ := List.pairwise_cons.mp h
      cases hrx : cmp r x with
      | gt =>
          have hnone : holdsEqualBy cmp x (r :: held) = false := by
            simp [holdsEqualBy, hrx]
          rw [joinBy_cons_of_gt hrx, hnone, placeBy_cons_of_not_le (by rw [hrx]; decide)]
          rfl
      | eq =>
          have hbehind : held.takeWhile (fun b => (cmp b x).isLE) = [] := by
            cases held with
            | nil => rfl
            | cons b held =>
                have hbx : cmp b x = .gt := by
                  rw [← Std.TransCmp.congr_right hrx, compare_swap cmp r b,
                    hall b List.mem_cons_self]
                  rfl
                simp [hbx]
          have hsome : holdsEqualBy cmp x (r :: held) = true := by
            simp [holdsEqualBy, hrx, hbehind]
          rw [joinBy_cons_of_eq hrx, hsome]
          rfl
      | lt =>
          have hsame : holdsEqualBy cmp x (r :: held) = holdsEqualBy cmp x held := by
            cases hfront : held.takeWhile (fun b => (cmp b x).isLE) with
            | nil => simp [holdsEqualBy, hrx, hfront]
            | cons b front => simp [holdsEqualBy, hrx, hfront]
          rw [joinBy_cons_of_lt hrx, ih htail, hsame, placeBy_cons_of_le (by rw [hrx]; rfl)]
          split <;> rfl

/-- What is held after one more element. -/
theorem insertBy_take_retainedBy (policy : DuplicatePolicy) (limit : Nat) (xs : List α)
    (x : α) :
    insertBy cmp policy limit ((retainedBy cmp policy xs).take limit) x =
      (retainedBy cmp policy (xs ++ [x])).take limit := by
  cases policy with
  | preserve =>
      rw [insertBy, if_neg (by simp), retainedBy, retainedBy, take_placeBy_take, sortBy_concat]
  | suppress =>
      have hsorted : (sortBy cmp xs).Pairwise fun a b => (cmp a b).isLE := pairwise_sortBy xs
      have hstrict := (pairwise_firstsBy hsorted).sublist
        (List.take_sublist limit (firstsBy cmp (sortBy cmp xs)))
      have hjoin := joinBy_eq_ite x hstrict
      rw [retainedBy, retainedBy, sortBy_concat, firstsBy_placeBy x hsorted,
        ← take_joinBy_take, hjoin, insertBy]
      by_cases hequal : holdsEqualBy cmp x ((firstsBy cmp (sortBy cmp xs)).take limit)
      · rw [if_pos ⟨rfl, hequal⟩, if_pos hequal, List.take_take, Nat.min_self]
      · rw [if_neg fun h => hequal h.2, if_neg hequal]

/-- Taking elements one after the other gives the first ones under the policy. -/
theorem foldl_insertBy (policy : DuplicatePolicy) (limit : Nat) (xs : List α) :
    xs.foldl (insertBy cmp policy limit) [] = (retainedBy cmp policy xs).take limit := by
  induction xs using List.reverseRecOn with
  | nil => cases policy <;> simp [retainedBy, sortBy, firstsBy]
  | append_singleton xs x ih =>
      rw [List.foldl_append, ih, List.foldl_cons, List.foldl_nil, insertBy_take_retainedBy]

end Insertion

section Mapping

variable {α β : Type} {cmp : α → α → Ordering} {cmp' : β → β → Ordering} {f : α → β}

theorem insertBy_map (h : ∀ a b, cmp a b = cmp' (f a) (f b)) (policy : DuplicatePolicy)
    (limit : Nat) (held : List α) (x : α) :
    insertBy cmp' policy limit (held.map f) (f x) = (insertBy cmp policy limit held x).map f := by
  have hcmp : (fun r => (cmp' r (f x)).isLE) ∘ f = fun r => (cmp r x).isLE := by
    funext r
    simp [h]
  have hequal : holdsEqualBy cmp' (f x) (held.map f) = holdsEqualBy cmp x held := by
    rw [holdsEqualBy, holdsEqualBy, List.takeWhile_map, hcmp, List.getLast?_map,
      Option.any_map]
    simp [h]
  have hplace : placeBy cmp' (f x) (held.map f) = (placeBy cmp x held).map f := by
    rw [placeBy, placeBy, List.takeWhile_map, List.dropWhile_map, hcmp, List.map_append,
      List.map_cons]
  rw [insertBy, insertBy, hequal, hplace]
  split
  · rfl
  · rw [List.map_take]

theorem retainedBy_map (h : ∀ a b, cmp a b = cmp' (f a) (f b)) (policy : DuplicatePolicy)
    (xs : List α) : retainedBy cmp' policy (xs.map f) = (retainedBy cmp policy xs).map f := by
  have hsort : sortBy cmp' (xs.map f) = (sortBy cmp xs).map f :=
    (List.map_mergeSort fun a _ b _ => by rw [h]).symm
  cases policy with
  | preserve => exact hsort
  | suppress =>
      rw [retainedBy, hsort]
      exact (List.map_destutter fun a _ b _ => by rw [h]).symm

theorem foldl_insertBy_map (h : ∀ a b, cmp a b = cmp' (f a) (f b)) (policy : DuplicatePolicy)
    (limit : Nat) (xs held : List α) :
    (xs.map f).foldl (insertBy cmp' policy limit) (held.map f) =
      (xs.foldl (insertBy cmp policy limit) held).map f := by
  induction xs generalizing held with
  | nil => rfl
  | cons x xs ih => rw [List.map_cons, List.foldl_cons, List.foldl_cons, insertBy_map h, ih]

end Mapping

/-- A row has a value for every key of the sort. -/
def Covers (s : Sorting) (row : Row) : Prop :=
  ∀ k ∈ s.keys, (row.value? k.field).isSome

/-- The rows a sort hands out: the first ones of the stable sort, equal rows being dropped
behind the first of them if the policy says so. -/
def firstRows (s : Sorting) (rows : List Row) : List Row :=
  (retainedBy s.compare s.policy rows).take s.limit

theorem transCmp_compareKey {k : SortKey} {P : Row → Prop}
    (h : ∀ row, P row → (row.value? k.field).isSome) :
    Std.TransCmp fun a b : { row // P row } => compareKey k a.1 b.1 := by
  have hvalue (a : { row // P row }) : ∃ v, a.1.value? k.field = some v :=
    Option.isSome_iff_exists.mp (h a.1 a.2)
  have hswap (v w : Value) : v.totalCompare w = (w.totalCompare v).swap :=
    Std.OrientedCmp.eq_swap
  refine { eq_swap := ?_, isLE_trans := ?_ }
  · intro a b
    obtain ⟨v, hv⟩ := hvalue a
    obtain ⟨w, hw⟩ := hvalue b
    simp only [compareKey, hv, hw]
    split
    · exact hswap v w
    · rw [hswap v w]
  · intro a b c hab hbc
    obtain ⟨u, hu⟩ := hvalue a
    obtain ⟨v, hv⟩ := hvalue b
    obtain ⟨w, hw⟩ := hvalue c
    simp only [compareKey, hu, hv, hw] at hab hbc ⊢
    split at hab
    · rename_i hasc
      rw [if_pos hasc] at hbc ⊢
      exact Std.TransCmp.isLE_trans hab hbc
    · rename_i hdesc
      rw [if_neg hdesc] at hbc ⊢
      rw [← hswap] at hab hbc ⊢
      exact Std.TransCmp.isLE_trans hbc hab

theorem transCmp_compareBy {keys : List SortKey} {P : Row → Prop}
    (h : ∀ row, P row → ∀ k ∈ keys, (row.value? k.field).isSome) :
    Std.TransCmp fun a b : { row // P row } => compareBy keys a.1 b.1 := by
  induction keys with
  | nil =>
      refine { eq_swap := ?_, isLE_trans := ?_ }
      · intro a b
        rfl
      · intro a b c hab hbc
        rfl
  | cons k keys ih =>
      have hkey := transCmp_compareKey fun row hrow => h row hrow k List.mem_cons_self
      have hrest := ih fun row hrow k' hk' => h row hrow k' (List.mem_cons_of_mem k hk')
      exact inferInstanceAs (Std.TransCmp (compareLex
        (fun a b : { row // P row } => compareKey k a.1 b.1)
        fun a b : { row // P row } => compareBy keys a.1 b.1))

/-- A row with a value for every key of the sort. -/
abbrev Covered (s : Sorting) := { row // s.Covers row }

instance transCmp_compare (s : Sorting) :
    Std.TransCmp fun a b : s.Covered => s.compare a.1 b.1 :=
  transCmp_compareBy fun _ hrow => hrow

theorem exists_covered {s : Sorting} {rows : List Row} (h : ∀ row ∈ rows, s.Covers row) :
    ∃ covered : List s.Covered, covered.map Subtype.val = rows :=
  ⟨rows.attachWith s.Covers h, List.attachWith_map_subtype_val h⟩

/-- Taking rows one after the other gives the first rows of the sort. -/
theorem foldl_insert_eq (s : Sorting) {rows : List Row} (h : ∀ row ∈ rows, s.Covers row) :
    rows.foldl s.insert [] = s.firstRows rows := by
  obtain ⟨covered, rfl⟩ := exists_covered h
  let cmp : s.Covered → s.Covered → Ordering := fun a b => s.compare a.1 b.1
  have hval (a b : s.Covered) : cmp a b = s.compare a.1 b.1 := rfl
  have hfold := foldl_insertBy_map hval s.policy s.limit covered []
  rw [foldl_insertBy, List.map_take, ← retainedBy_map hval] at hfold
  exact hfold

end Sorting
end OrderedQuery
