import OrderedQuery.Proofs.Plan.Tiling

/-!
# The first rows of a sort

A sort that suppresses duplicates takes rows one after the other and lets go of those beyond its
limit, so a row that comes later may meet no equal row although one came before it.  It hands out
the same rows as if the earliest row of every class of equal ones had been kept before there was
anything to sort.
-/

namespace OrderedQuery

section Earliest

variable {α β : Type} {r : α → α → Bool} {x : α}

theorem eraseDupsBy_loop_concat (xs held : List α) :
    List.eraseDupsBy.loop r (xs ++ [x]) held =
      List.eraseDupsBy.loop r xs held ++
        if (List.eraseDupsBy.loop r xs held).any (r x) then [] else [x] := by
  induction xs generalizing held with
  | nil =>
      rw [List.nil_append, List.eraseDupsBy.loop, List.eraseDupsBy.loop, List.any_reverse]
      cases held.any (r x) with
      | true => exact (List.append_nil _).symm
      | false => exact List.reverse_cons
  | cons a xs ih =>
      rw [List.cons_append, List.eraseDupsBy.loop, List.eraseDupsBy.loop]
      cases held.any (r a) <;> exact ih _

/-- The last element is kept unless an equal one is kept already. -/
theorem eraseDupsBy_concat (xs : List α) :
    (xs ++ [x]).eraseDupsBy r =
      xs.eraseDupsBy r ++ if (xs.eraseDupsBy r).any (r x) then [] else [x] :=
  eraseDupsBy_loop_concat xs []

theorem eraseDupsBy_loop_map {f : β → α} (ys held : List β) :
    List.eraseDupsBy.loop r (ys.map f) (held.map f) =
      (List.eraseDupsBy.loop (fun a b => r (f a) (f b)) ys held).map f := by
  induction ys generalizing held with
  | nil => exact (List.map_reverse ..).symm
  | cons b ys ih =>
      rw [List.map_cons, List.eraseDupsBy.loop, List.eraseDupsBy.loop, List.any_map]
      show (match held.any fun c => r (f b) (f c) with
        | true => _
        | false => _) = _
      cases held.any fun c => r (f b) (f c) with
      | true => exact ih held
      | false => exact ih (b :: held)

theorem eraseDupsBy_map {f : β → α} (ys : List β) :
    (ys.map f).eraseDupsBy r = (ys.eraseDupsBy fun a b => r (f a) (f b)).map f :=
  eraseDupsBy_loop_map ys []

end Earliest

namespace Sorting

section

variable {α : Type} {cmp : α → α → Ordering} {x : α} {held : List α}

theorem joinBy_of_forall_ne (h : ∀ r ∈ held, cmp r x ≠ .eq) :
    joinBy cmp x held = placeBy cmp x held := by
  induction held with
  | nil => rfl
  | cons r held ih =>
      obtain ⟨hr, hheld⟩ := List.forall_mem_cons.mp h
      by_cases hle : (cmp r x).isLE
      · rw [joinBy_cons_of_lt (lt_of_isLE_of_ne hle hr), placeBy_cons_of_le hle, ih hheld]
      · rw [joinBy, if_neg hle, placeBy_cons_of_not_le hle]

variable [Std.TransCmp cmp]

/-- An element is not joined to a list that ascends strictly and holds an equal one. -/
theorem joinBy_of_exists_eq (hsorted : held.Pairwise fun a b => cmp a b = .lt)
    (h : ∃ r ∈ held, cmp r x = .eq) : joinBy cmp x held = held := by
  induction held with
  | nil =>
      obtain ⟨r, hr, -⟩ := h
      cases hr
  | cons a held ih =>
      obtain ⟨hall, htail⟩ := List.pairwise_cons.mp hsorted
      obtain ⟨r, hr, heq⟩ := h
      rcases List.mem_cons.mp hr with rfl | hr
      · exact joinBy_cons_of_eq heq held
      · have hlt : cmp a x = .lt := by
          rw [← Std.TransCmp.congr_right heq]
          exact hall r hr
        rw [joinBy_cons_of_lt hlt, ih htail ⟨r, hr, heq⟩]

/-- The first elements of the runs of equal ones in the sorted list are the earliest elements of
the classes of equal ones, sorted. -/
theorem firstsBy_sortBy (xs : List α) :
    firstsBy cmp (sortBy cmp xs) = sortBy cmp (xs.eraseDupsBy fun a b => (cmp a b).isEq) := by
  induction xs using List.reverseRecOn with
  | nil =>
      have hnil : sortBy cmp [] = [] := List.mergeSort_nil
      show firstsBy cmp (sortBy cmp []) = sortBy cmp []
      rw [hnil]
      rfl
  | append_singleton xs x ih =>
      have hsorted : (sortBy cmp xs).Pairwise fun a b => (cmp a b).isLE := pairwise_sortBy xs
      have hstrict := pairwise_firstsBy hsorted
      rw [ih] at hstrict
      rw [sortBy_concat, firstsBy_placeBy x hsorted, ih, eraseDupsBy_concat]
      have hmem (r : α) : r ∈ sortBy cmp (xs.eraseDupsBy fun a b => (cmp a b).isEq) ↔
          r ∈ xs.eraseDupsBy fun a b => (cmp a b).isEq :=
        List.mem_mergeSort
      by_cases hany : (xs.eraseDupsBy fun a b => (cmp a b).isEq).any fun r => (cmp x r).isEq
      · rw [if_pos hany, List.append_nil]
        obtain ⟨r, hr, heq⟩ := List.any_eq_true.mp hany
        apply joinBy_of_exists_eq hstrict
        refine ⟨r, (hmem r).mpr hr, ?_⟩
        rw [compare_swap cmp x r, Ordering.isEq_iff_eq_eq.mp heq]
        rfl
      · rw [if_neg hany, sortBy_concat]
        apply joinBy_of_forall_ne
        intro r hr heq
        refine hany (List.any_eq_true.mpr ⟨r, (hmem r).mp hr, ?_⟩)
        rw [compare_swap cmp r x, heq]
        rfl

/-- Every element is equal to one that is kept. -/
theorem any_eraseDupsBy {xs : List α} (h : x ∈ xs) :
    (xs.eraseDupsBy fun a b => (cmp a b).isEq).any fun r => (cmp x r).isEq := by
  induction xs using List.reverseRecOn with
  | nil => cases h
  | append_singleton xs y ih =>
      rw [eraseDupsBy_concat, List.any_append]
      rcases List.mem_append.mp h with hmem | hmem
      · rw [ih hmem, Bool.true_or]
      · rw [List.mem_singleton.mp hmem]
        split
        · rename_i hany
          rw [hany, Bool.true_or]
        · have hself : cmp y y = .eq := Std.ReflCmp.compare_self
          rw [List.any_cons, hself]
          exact Bool.or_true _

/-- No element that came before one that is kept is equal to it. -/
theorem exists_eq_append_of_mem_eraseDupsBy {xs : List α}
    (h : x ∈ xs.eraseDupsBy fun a b => (cmp a b).isEq) :
    ∃ before after, xs = before ++ x :: after ∧ ∀ earlier ∈ before, cmp earlier x ≠ .eq := by
  induction xs using List.reverseRecOn with
  | nil => cases h
  | append_singleton xs y ih =>
      rw [eraseDupsBy_concat] at h
      rcases List.mem_append.mp h with hmem | hmem
      · obtain ⟨before, after, rfl, hbefore⟩ := ih hmem
        exact ⟨before, after ++ [y], by rw [List.append_assoc, List.cons_append], hbefore⟩
      · split at hmem
        · cases hmem
        · rename_i hnone
          obtain rfl := List.mem_singleton.mp hmem
          refine ⟨xs, [], rfl, fun earlier hearlier heq => hnone ?_⟩
          have hswap : cmp x earlier = .eq := by
            rw [compare_swap cmp earlier x, heq]
            rfl
          simp only [Std.TransCmp.congr_left hswap]
          exact any_eraseDupsBy hearlier

end

/-- The rows that a policy keeps: all of them, or the earliest of every class of rows with equal
keys. -/
def kept (s : Sorting) (rows : List Row) : List Row :=
  match s.policy with
  | .preserve => rows
  | .suppress => rows.eraseDupsBy fun a b => (s.compare a b).isEq

theorem kept_map {s : Sorting} (hpolicy : s.policy = .suppress) (covered : List s.Covered) :
    s.kept (covered.map Subtype.val) =
      (covered.eraseDupsBy fun a b => (s.compare a.1 b.1).isEq).map Subtype.val := by
  rw [kept, hpolicy]
  exact eraseDupsBy_map covered

/-- The first rows of a sort are those of the stable sort of the rows that are kept. -/
theorem firstRows_eq (s : Sorting) {rows : List Row} (h : ∀ row ∈ rows, s.Covers row) :
    s.firstRows rows = (sortBy s.compare (s.kept rows)).take s.limit := by
  cases hpolicy : s.policy with
  | preserve => rw [firstRows, kept, hpolicy, retainedBy]
  | suppress =>
      obtain ⟨covered, rfl⟩ := exists_covered h
      let cmp : s.Covered → s.Covered → Ordering := fun a b => s.compare a.1 b.1
      have hval (a b : s.Covered) : cmp a b = s.compare a.1 b.1 := rfl
      calc s.firstRows (covered.map Subtype.val)
        _ = ((firstsBy cmp (sortBy cmp covered)).map Subtype.val).take s.limit := by
            rw [firstRows, hpolicy, retainedBy_map hval, retainedBy]
        _ = ((sortBy cmp (covered.eraseDupsBy fun a b => (cmp a b).isEq)).map
              Subtype.val).take s.limit := by
            rw [firstsBy_sortBy]
        _ = (sortBy s.compare (s.kept (covered.map Subtype.val))).take s.limit := by
            rw [kept_map hpolicy]
            exact congrArg (List.take s.limit) (retainedBy_map hval .preserve _).symm

/-- Of rows with equal keys, only the one that came first is kept. -/
theorem exists_eq_append_of_mem_kept {s : Sorting} {rows : List Row} {row : Row}
    (h : ∀ row ∈ rows, s.Covers row) (hpolicy : s.policy = .suppress) (hrow : row ∈ s.kept rows) :
    ∃ before after, rows = before ++ row :: after ∧
      ∀ earlier ∈ before, s.compare earlier row ≠ .eq := by
  obtain ⟨covered, rfl⟩ := exists_covered h
  rw [kept_map hpolicy] at hrow
  obtain ⟨x, hx, rfl⟩ := List.mem_map.mp hrow
  obtain ⟨before, after, rfl, hbefore⟩ := exists_eq_append_of_mem_eraseDupsBy hx
  refine ⟨before.map Subtype.val, after.map Subtype.val, ?_, ?_⟩
  · rw [List.map_append, List.map_cons]
  · intro earlier hearlier
    obtain ⟨b, hb, rfl⟩ := List.mem_map.mp hearlier
    exact hbefore b hb

end Sorting

namespace Plan

/-- Executing a sort returns the first rows of the stable sort of the rows that its policy keeps,
which are all rows of the input, or the earliest of every class of rows with equal keys.  A row
with the keys of an earlier one is never returned, wherever that one went. -/
theorem sort_returns_first_rows {registry : Registry} {input p : Plan} {s : Sorting}
    (hinput : Built registry input) (hp : ofSort input s = .ok p) {ctx : Context} {store : Store}
    {w : World} (hw : Calm ctx store w) {env : Env} {ins : List Row}
    (hins : (input.execute ctx env w).1 = .ok ins)
    (hlimit : ctx.config.maxRowsInMemory = 0 ∨ s.limit ≤ ctx.config.maxRowsInMemory) :
    (p.execute ctx env w).1 =
        .ok (((s.kept ins).mergeSort fun a b => (s.compare a b).isLE).take s.limit) ∧
      (s.policy = .suppress → ∀ row ∈ s.kept ins, ∃ before after, ins = before ++ row :: after ∧
        ∀ earlier ∈ before, s.compare earlier row ≠ .eq) := by
  have hbuilt : Built registry p := .sort hinput hp
  obtain ⟨rfl, hkeys⟩ := ofSort_eq_ok hp
  have hmeans := (hinput.execute_eq_ok_iff hw).mp hins
  have hcovers : ∀ row ∈ ins, s.Covers row := by
    intro row hrow k hk
    have hfields := hinput.fields_of_mem (listing_eq_ok_iff_denotes.mpr hmeans) row hrow
    have hlength : k.field < row.values.length := by
      rw [row.length_values, hfields]
      exact hkeys k hk
    rw [Row.value?, List.getElem?_eq_getElem hlength]
    rfl
  refine ⟨?_, fun hpolicy row hrow => Sorting.exists_eq_append_of_mem_kept hcovers hpolicy hrow⟩
  have hfirst := Sorting.firstRows_eq s hcovers
  rw [Sorting.sortBy] at hfirst
  rw [hbuilt.execute_eq_ok_iff hw, ← hfirst]
  refine .sort ?_ hmeans
  rw [Sorting.checkLimit, if_neg]
  rintro ⟨hbound, hexceeds⟩
  rcases hlimit with hnone | hle
  · exact hbound hnone
  · exact Nat.not_lt_of_le hle hexceeds

/-- The first row is let go of, and does not come back with the fourth one. -/
theorem sort_returns_first_rows_suppressed :
    let pair : RowType := .ofFields [.int, .int]
    let first : Row := ⟨pair, [.int 3, .int 0], rfl⟩
    let second : Row := ⟨pair, [.int 1, .int 1], rfl⟩
    let third : Row := ⟨pair, [.int 2, .int 2], rfl⟩
    let fourth : Row := ⟨pair, [.int 3, .int 3], rfl⟩
    let s : Sorting := ⟨[⟨0, true⟩], .suppress, 2⟩
    let made := (World.ofEngine .empty).newContext {}
    ((Plan.sort (.values pair [first, second, third, fourth]) s).execute made.1 .root made.2).1 =
      .ok (([first, second, third].mergeSort fun a b => (s.compare a b).isLE).take 2) := by
  intro pair first second third fourth s made
  have hrows : ofRows pair [first, second, third, fourth] =
      .ok (.values pair [first, second, third, fourth]) := rfl
  have hinput : Built .builtins (.values pair [first, second, third, fourth]) := .values hrows
  have hsort : ofSort (.values pair [first, second, third, fourth]) s =
      .ok (.sort (.values pair [first, second, third, fourth]) s) := rfl
  have hw : Calm made.1 .empty made.2 := ⟨rfl, rfl, rfl⟩
  have hins : ((Plan.values pair [first, second, third, fourth]).execute made.1 .root made.2).1 =
      .ok [first, second, third, fourth] :=
    (hinput.execute_eq_ok_iff hw).mpr .values
  have hkept : s.kept [first, second, third, fourth] = [first, second, third] := rfl
  have hreturns := (sort_returns_first_rows hinput hsort hw hins (.inr (by decide))).1
  rw [hkept] at hreturns
  exact hreturns

end Plan
end OrderedQuery
