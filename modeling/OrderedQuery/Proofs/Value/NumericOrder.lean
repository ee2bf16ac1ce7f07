import OrderedQuery.Expr.Eval
import OrderedQuery.Proofs.Binary64.ExactValue
import OrderedQuery.Proofs.Value.Basic

/-!
# Numbers of two kinds

Integers and floats are compared as floats.  An integer beyond `2 ^ 53` can lie between two floats,
and then it is compared as the one nearest to it.  This module shows that nothing else goes wrong:
the order is that of the numbers that are meant unless the float is the one that the integer is
rounded to, and three numbers are in order unless two of them are integers that are rounded to the
third.
-/

namespace OrderedQuery
namespace Value

open Binary64

variable {u v w : Value} {a b c : EReal} {i j : Int64} {x y z : Binary64}

/-- What an integer means. -/
noncomputable def whole (i : Int64) : EReal :=
  ((i.toInt : ℝ) : EReal)

/-- What the float nearest to an integer means. -/
noncomputable def rounded (i : Int64) : EReal :=
  (ofInt i.toInt).exact

/-- What a value means that is a number. -/
noncomputable def number? : Value → Option EReal
  | int i => some (whole i)
  | float x => if x.isNaN then none else some x.exact
  | _ => none

/-- A float hides an integer that is rounded to it and means something else. -/
def Hides (x : Binary64) (i : Int64) : Prop :=
  rounded i = x.exact ∧ whole i ≠ x.exact

/-- One of two values is a float that hides the other one. -/
def Merged (u v : Value) : Prop :=
  ∃ x i, Hides x i ∧ (u = .int i ∧ v = .float x ∨ u = .float x ∧ v = .int i)

/-- Two of three values are different integers that are rounded to the third. -/
def Shared (u v w : Value) : Prop :=
  ∃ x i j, i ≠ j ∧ rounded i = x.exact ∧ rounded j = x.exact ∧
    ((u = .int i ∧ v = .int j ∧ w = .float x) ∨ (u = .int i ∧ v = .float x ∧ w = .int j) ∨
      (u = .float x ∧ v = .int i ∧ w = .int j))

/-- Three values are ordered like three points of a line. -/
def InLine (u v w : Value) : Prop :=
  ∃ a b c : EReal, u.compare v = some (cmp a b) ∧ v.compare w = some (cmp b c) ∧
    u.compare w = some (cmp a c)

/-- What is not above a second value, which is not above a third one, is not above the third one,
and level with it only if all are level. -/
def Composes (u v w : Value) : Prop :=
  ∀ o p, u.compare v = some o → v.compare w = some p → o ≠ .gt → p ≠ .gt →
    ∃ q, u.compare w = some q ∧ q ≠ .gt ∧ (q = .eq → o = .eq ∧ p = .eq)

/-! ## Integers and the floats nearest to them -/

theorem whole_le_iff : whole i ≤ whole j ↔ i.toInt ≤ j.toInt := by
  rw [whole, whole, EReal.coe_le_coe_iff, Int.cast_le]

theorem whole_inj : whole i = whole j ↔ i = j := by
  rw [whole, whole, EReal.coe_eq_coe_iff, Int.cast_inj, Int64.toInt_inj]

theorem rounded_mono (h : whole i ≤ whole j) : rounded i ≤ rounded j :=
  exact_ofInt_mono (natAbs_toInt_le i) (natAbs_toInt_le j) (whole_le_iff.mp h)

/-- An integer that is hidden is beyond `2 ^ 53`. -/
theorem Hides.lt_natAbs (h : Hides x i) : 2 ^ 53 < i.toInt.natAbs := by
  by_contra hle
  apply h.2
  rw [← h.1]
  exact (exact_ofInt_of_le (Nat.not_lt.mp hle)).symm

/-- Rounding an integer leaves it on its side of every float. -/
theorem cmp_rounded_exact (hx : x.isNaN = false) (h : ¬Hides x i) :
    cmp (rounded i) x.exact = cmp (whole i) x.exact := by
  have hne (hapart : whole i ≠ x.exact) : rounded i ≠ x.exact := fun heq => h ⟨heq, hapart⟩
  rcases lt_trichotomy (whole i) x.exact with hlt | heq | hgt
  · have hle : rounded i ≤ x.exact := exact_ofInt_le hx (natAbs_toInt_le i) hlt.le
    rw [hlt.cmp_eq_lt, (lt_of_le_of_ne hle (hne hlt.ne)).cmp_eq_lt]
  · have hle := exact_ofInt_le hx (natAbs_toInt_le i) heq.le
    have hge := le_exact_ofInt hx (natAbs_toInt_le i) heq.ge
    rw [heq.cmp_eq_eq]
    exact (le_antisymm hle hge).cmp_eq_eq
  · have hge : x.exact ≤ rounded i := le_exact_ofInt hx (natAbs_toInt_le i) hgt.le
    rw [hgt.cmp_eq_gt, (lt_of_le_of_ne hge (hne hgt.ne').symm).cmp_eq_gt]

theorem cmp_rounded_rounded (h : rounded i = rounded j → i = j) :
    cmp (whole i) (whole j) = cmp (rounded i) (rounded j) := by
  rcases lt_trichotomy (whole i) (whole j) with hlt | heq | hgt
  · have hne : rounded i ≠ rounded j := fun heq => hlt.ne (whole_inj.mpr (h heq))
    rw [hlt.cmp_eq_lt, (lt_of_le_of_ne (rounded_mono hlt.le) hne).cmp_eq_lt]
  · rw [heq.cmp_eq_eq, whole_inj.mp heq, cmp_self_eq_eq]
  · have hne : rounded j ≠ rounded i := fun heq => hgt.ne' (whole_inj.mpr (h heq.symm))
    rw [hgt.cmp_eq_gt, (lt_of_le_of_ne (rounded_mono hgt.le) hne).cmp_eq_gt]

/-! ## Two numbers -/

theorem compare_int_int (i j : Int64) :
    (int i).compare (int j) = some (cmp (whole i) (whole j)) := by
  have hmono : StrictMono fun n : Int => ((n : ℝ) : EReal) :=
    EReal.coe_strictMono.comp Int.cast_strictMono
  rw [compare, ← cmp_eq_compare]
  exact congrArg some (hmono.cmp_map_eq i.toInt j.toInt).symm

theorem compare_float_float (hx : x.isNaN = false) (hy : y.isNaN = false) :
    (float x).compare (float y) = some (cmp x.exact y.exact) :=
  compare_eq_cmp_exact hx hy

theorem compare_int_float (i : Int64) (hx : x.isNaN = false) :
    (int i).compare (float x) = some (cmp (rounded i) x.exact) :=
  compare_eq_cmp_exact (isNaN_ofInt i.toInt) hx

theorem compare_float_int (hx : x.isNaN = false) (i : Int64) :
    (float x).compare (int i) = some (cmp x.exact (rounded i)) :=
  compare_eq_cmp_exact hx (isNaN_ofInt i.toInt)

/-- An integer is level with the float that it is rounded to. -/
theorem compare_of_rounded (hx : x.isNaN = false) (h : rounded i = x.exact) :
    (int i).compare (float x) = some .eq ∧ (float x).compare (int i) = some .eq := by
  rw [compare_int_float i hx, compare_float_int hx i, h, cmp_self_eq_eq]
  exact ⟨rfl, rfl⟩

theorem number?_int (h : (int i).number? = some a) : a = whole i :=
  (Option.some.inj h).symm

theorem number?_float (h : (float x).number? = some a) : x.isNaN = false ∧ a = x.exact := by
  rw [number?] at h
  split at h
  · cases h
  · rename_i hx
    exact ⟨eq_false_of_ne_true hx, (Option.some.inj h).symm⟩

theorem number?_of_not_isNaN (hx : x.isNaN = false) : (float x).number? = some x.exact := by
  rw [number?, hx, if_neg Bool.false_ne_true]

theorem number?_cases (h : u.number? = some a) :
    (∃ i, u = .int i ∧ a = whole i) ∨ ∃ x, u = .float x ∧ x.isNaN = false ∧ a = x.exact := by
  cases u with
  | int i => exact .inl ⟨i, rfl, number?_int h⟩
  | float x => exact .inr ⟨x, rfl, number?_float h⟩
  | _ => cases h

theorem compare_of_not_merged (hu : u.number? = some a) (hv : v.number? = some b)
    (h : ¬Merged u v) : u.compare v = some (cmp a b) := by
  rcases number?_cases hu with ⟨i, rfl, rfl⟩ | ⟨x, rfl, hx, rfl⟩
  · rcases number?_cases hv with ⟨j, rfl, rfl⟩ | ⟨y, rfl, hy, rfl⟩
    · exact compare_int_int i j
    · have hopen : ¬Hides y i := fun hhides => h ⟨y, i, hhides, .inl ⟨rfl, rfl⟩⟩
      rw [compare_int_float i hy, cmp_rounded_exact hy hopen]
  · rcases number?_cases hv with ⟨j, rfl, rfl⟩ | ⟨y, rfl, hy, rfl⟩
    · have hopen : ¬Hides x j := fun hhides => h ⟨x, j, hhides, .inr ⟨rfl, rfl⟩⟩
      rw [compare_float_int hx j, cmp_eq_cmp_symm.mp (cmp_rounded_exact hx hopen)]
    · exact compare_float_float hx hy

theorem compare_of_merged (hu : u.number? = some a) (hv : v.number? = some b)
    (h : Merged u v) : u.compare v = some .eq ∧ a ≠ b := by
  obtain ⟨x, i, ⟨hrounded, hapart⟩, ⟨rfl, rfl⟩ | ⟨rfl, rfl⟩⟩ := h
  · obtain rfl := number?_int hu
    obtain ⟨hx, rfl⟩ := number?_float hv
    exact ⟨(compare_of_rounded hx hrounded).1, hapart⟩
  · obtain rfl := number?_int hv
    obtain ⟨hx, rfl⟩ := number?_float hu
    exact ⟨(compare_of_rounded hx hrounded).2, hapart.symm⟩

theorem compare_eq_some_cmp_iff (hu : u.number? = some a) (hv : v.number? = some b) :
    u.compare v = some (cmp a b) ↔ ¬Merged u v := by
  constructor
  · intro h hmerged
    obtain ⟨heq, hne⟩ := compare_of_merged hu hv hmerged
    exact hne ((cmp_eq_eq_iff a b).mp (Option.some.inj (h.symm.trans heq)))
  · exact compare_of_not_merged hu hv

theorem Merged.exists_int (h : Merged u v) :
    ∃ i : Int64, (u = .int i ∨ v = .int i) ∧ 2 ^ 53 < i.toInt.natAbs := by
  obtain ⟨x, i, hhides, ⟨hint, -⟩ | ⟨-, hint⟩⟩ := h
  · exact ⟨i, .inl hint, hhides.lt_natAbs⟩
  · exact ⟨i, .inr hint, hhides.lt_natAbs⟩

theorem exists_compare (hu : u.number? = some a) (hv : v.number? = some b) :
    ∃ o, u.compare v = some o := by
  by_cases h : Merged u v
  · exact ⟨.eq, (compare_of_merged hu hv h).1⟩
  · exact ⟨cmp a b, compare_of_not_merged hu hv h⟩

/-! ## Three numbers -/

/-- Two integers and a float are in line, by what they mean or by what the integers are rounded to,
unless both are rounded to the float. -/
theorem exists_cmp_eq (hx : x.isNaN = false)
    (h : i ≠ j → rounded i = x.exact → rounded j ≠ x.exact) :
    ∃ a b c : EReal, cmp (whole i) (whole j) = cmp a b ∧ cmp (rounded i) x.exact = cmp a c ∧
      cmp (rounded j) x.exact = cmp b c := by
  by_cases hround : rounded i = rounded j → i = j
  · exact ⟨_, _, _, cmp_rounded_rounded hround, rfl, rfl⟩
  · obtain ⟨hsame, hne⟩ := Classical.not_imp.mp hround
    have hi : ¬Hides x i := fun hhides => h hne hhides.1 (hsame ▸ hhides.1)
    have hj : ¬Hides x j := fun hhides => h hne (hsame.trans hhides.1) hhides.1
    exact ⟨_, _, _, rfl, cmp_rounded_exact hx hi, cmp_rounded_exact hx hj⟩

theorem inLine_of_not_shared (hu : u.number? = some a) (hv : v.number? = some b)
    (hw : w.number? = some c) (h : ¬Shared u v w) : InLine u v w := by
  rcases number?_cases hu with ⟨i, rfl, -⟩ | ⟨x, rfl, hx, -⟩
  · rcases number?_cases hv with ⟨j, rfl, -⟩ | ⟨y, rfl, hy, -⟩
    · rcases number?_cases hw with ⟨k, rfl, -⟩ | ⟨z, rfl, hz, -⟩
      · exact ⟨_, _, _, compare_int_int i j, compare_int_int j k, compare_int_int i k⟩
      · obtain ⟨a, b, c, hij, hiz, hjz⟩ := exists_cmp_eq hz (i := i) (j := j)
          fun hne hi hj => h ⟨z, i, j, hne, hi, hj, .inl ⟨rfl, rfl, rfl⟩⟩
        refine ⟨a, b, c, ?_, ?_, ?_⟩
        · rw [compare_int_int, hij]
        · rw [compare_int_float j hz, hjz]
        · rw [compare_int_float i hz, hiz]
    · rcases number?_cases hw with ⟨k, rfl, -⟩ | ⟨z, rfl, hz, -⟩
      · obtain ⟨a, c, b, hik, hiy, hky⟩ := exists_cmp_eq hy (i := i) (j := k)
          fun hne hi hk => h ⟨y, i, k, hne, hi, hk, .inr (.inl ⟨rfl, rfl, rfl⟩)⟩
        refine ⟨a, b, c, ?_, ?_, ?_⟩
        · rw [compare_int_float i hy, hiy]
        · rw [compare_float_int hy k, cmp_eq_cmp_symm.mp hky]
        · rw [compare_int_int, hik]
      · exact ⟨_, _, _, compare_int_float i hy, compare_float_float hy hz,
          compare_int_float i hz⟩
  · rcases number?_cases hv with ⟨j, rfl, -⟩ | ⟨y, rfl, hy, -⟩
    · rcases number?_cases hw with ⟨k, rfl, -⟩ | ⟨z, rfl, hz, -⟩
      · obtain ⟨b, c, a, hjk, hjx, hkx⟩ := exists_cmp_eq hx (i := j) (j := k)
          fun hne hj hk => h ⟨x, j, k, hne, hj, hk, .inr (.inr ⟨rfl, rfl, rfl⟩)⟩
        refine ⟨a, b, c, ?_, ?_, ?_⟩
        · rw [compare_float_int hx j, cmp_eq_cmp_symm.mp hjx]
        · rw [compare_int_int, hjk]
        · rw [compare_float_int hx k, cmp_eq_cmp_symm.mp hkx]
      · exact ⟨_, _, _, compare_float_int hx j, compare_int_float j hz,
          compare_float_float hx hz⟩
    · rcases number?_cases hw with ⟨k, rfl, -⟩ | ⟨z, rfl, hz, -⟩
      · exact ⟨_, _, _, compare_float_float hx hy, compare_float_int hy k,
          compare_float_int hx k⟩
      · exact ⟨_, _, _, compare_float_float hx hy, compare_float_float hy hz,
          compare_float_float hx hz⟩

/-- Of three values in line, two that are level with the same one are level with each other. -/
theorem InLine.level (h : InLine u v w) :
    (u.compare w = some .eq → v.compare w = some .eq → u.compare v = some .eq) ∧
      (u.compare v = some .eq → v.compare w = some .eq → u.compare w = some .eq) ∧
      (u.compare v = some .eq → u.compare w = some .eq → v.compare w = some .eq) := by
  obtain ⟨a, b, c, huv, hvw, huw⟩ := h
  have hlevel (p q : EReal) : some (cmp p q) = some .eq ↔ p = q := by
    rw [Option.some.injEq, cmp_eq_eq_iff]
  rw [huv, hvw, huw, hlevel, hlevel, hlevel]
  refine ⟨?_, ?_, ?_⟩
  · exact fun hac hbc => hac.trans hbc.symm
  · exact fun hab hbc => hab.trans hbc
  · exact fun hab hac => hab.symm.trans hac

theorem not_inLine_of_shared (hu : u.number? = some a) (hv : v.number? = some b)
    (hw : w.number? = some c) (h : Shared u v w) : ¬InLine u v w := by
  obtain ⟨x, i, j, hne, hi, hj, hthree⟩ := h
  have hapart : (int i).compare (int j) ≠ some .eq := by
    rw [compare_int_int, Ne, Option.some.injEq, cmp_eq_eq_iff, whole_inj]
    exact hne
  intro hline
  rcases hthree with ⟨rfl, rfl, rfl⟩ | ⟨rfl, rfl, rfl⟩ | ⟨rfl, rfl, rfl⟩
  · have hx := (number?_float hw).1
    exact hapart (hline.level.1 (compare_of_rounded hx hi).1 (compare_of_rounded hx hj).1)
  · have hx := (number?_float hv).1
    exact hapart (hline.level.2.1 (compare_of_rounded hx hi).1 (compare_of_rounded hx hj).2)
  · have hx := (number?_float hu).1
    exact hapart (hline.level.2.2 (compare_of_rounded hx hi).2 (compare_of_rounded hx hj).2)

theorem InLine.composes (h : InLine u v w) : Composes u v w := by
  obtain ⟨a, b, c, huv, hvw, huw⟩ := h
  intro o p ho hp hle hle'
  obtain rfl := Option.some.inj (huv.symm.trans ho)
  obtain rfl := Option.some.inj (hvw.symm.trans hp)
  have hab : a ≤ b := not_lt.mp (mt (cmp_eq_gt_iff a b).mpr hle)
  have hbc : b ≤ c := not_lt.mp (mt (cmp_eq_gt_iff b c).mpr hle')
  refine ⟨cmp a c, huw, fun hgt => ?_, fun heq => ?_⟩
  · exact ((cmp_eq_gt_iff a c).mp hgt).not_ge (hab.trans hbc)
  · obtain rfl := (cmp_eq_eq_iff a c).mp heq
    obtain rfl := le_antisymm hab hbc
    exact ⟨cmp_self_eq_eq a, cmp_self_eq_eq a⟩

/-- One of two different integers is not the float that both are rounded to. -/
theorem Shared.merged (h : Shared u v w) : Merged u v ∨ Merged v w ∨ Merged u w := by
  obtain ⟨x, i, j, hne, hi, hj, hthree⟩ := h
  have hhides : Hides x i ∨ Hides x j := by
    by_cases heq : whole i = x.exact
    · exact .inr ⟨hj, fun heq' => hne (whole_inj.mp (heq.trans heq'.symm))⟩
    · exact .inl ⟨hi, heq⟩
  rcases hthree with ⟨rfl, rfl, rfl⟩ | ⟨rfl, rfl, rfl⟩ | ⟨rfl, rfl, rfl⟩
  · rcases hhides with hhides | hhides
    · exact .inr (.inr ⟨x, i, hhides, .inl ⟨rfl, rfl⟩⟩)
    · exact .inr (.inl ⟨x, j, hhides, .inl ⟨rfl, rfl⟩⟩)
  · rcases hhides with hhides | hhides
    · exact .inl ⟨x, i, hhides, .inl ⟨rfl, rfl⟩⟩
    · exact .inr (.inl ⟨x, j, hhides, .inr ⟨rfl, rfl⟩⟩)
  · rcases hhides with hhides | hhides
    · exact .inl ⟨x, i, hhides, .inr ⟨rfl, rfl⟩⟩
    · exact .inr (.inr ⟨x, j, hhides, .inr ⟨rfl, rfl⟩⟩)

/-! ## Comparisons of expressions -/

/-- All comparisons of two expressions, in both directions, go by one answer. -/
def Agree (u v : Value) : Prop :=
  ∃ o, u.compare v = some o ∧ ∀ op l r row env,
    Expr.eval row env l = .ok u → Expr.eval row env r = .ok v →
      (Expr.compare op l r).eval row env = .ok (.bool (op.holds o)) ∧
        (Expr.compare op r l).eval row env = .ok (.bool (op.holds o.swap))

theorem eval_compare {op : Comparison} {l r : Expr} {row : Option Row} {env : Env} {o : Ordering}
    (hl : l.eval row env = .ok u) (hr : r.eval row env = .ok v) (h : u.compare v = some o) :
    (Expr.compare op l r).eval row env = .ok (.bool (op.holds o)) := by
  have hnull : (u.isNull || v.isNull) = false := by
    cases u <;> cases v <;> first | rfl | cases h
  rw [Expr.eval, hl, hr]
  simp only [bind, Except.bind]
  rw [Expr.compareValues, hnull, if_neg Bool.false_ne_true, h]

theorem agree_of_numbers (hu : u.number? = some a) (hv : v.number? = some b) : Agree u v := by
  obtain ⟨o, huv⟩ := exists_compare hu hv
  have hvu : v.compare u = some o.swap := by rw [compare_swap u v, huv, Option.map_some]
  exact ⟨o, huv, fun op l r row env hl hr => ⟨eval_compare hl hr huv, eval_compare hr hl hvu⟩⟩

/-- Numbers are compared as what they mean unless one of them is a float that hides the other one,
which then is an integer beyond `2 ^ 53` and taken for the float.  Every comparison agrees with the
one in the other direction, and three numbers are in line unless two of them are integers that are
rounded to the third. -/
theorem compare_numbers_iff (hu : u.number? = some a) (hv : v.number? = some b)
    (hw : w.number? = some c) :
    (u.compare v = some (cmp a b) ↔ ¬Merged u v) ∧
      (Merged u v → u.compare v = some .eq ∧
        ∃ i : Int64, (u = .int i ∨ v = .int i) ∧ 2 ^ 53 < i.toInt.natAbs) ∧
      v.compare u = (u.compare v).map Ordering.swap ∧
      (InLine u v w ↔ ¬Shared u v w) ∧
      (¬Shared u v w → Composes u v w) ∧
      (Shared u v w → Merged u v ∨ Merged v w ∨ Merged u w) ∧
      Agree u v := by
  refine ⟨compare_eq_some_cmp_iff hu hv,
    fun h => ⟨(compare_of_merged hu hv h).1, h.exists_int⟩, compare_swap u v, ?_, ?_,
    Shared.merged, agree_of_numbers hu hv⟩
  · constructor
    · exact fun hline hshared => not_inLine_of_shared hu hv hw hshared hline
    · exact inLine_of_not_shared hu hv hw
  · exact fun h => (inLine_of_not_shared hu hv hw h).composes

/-- A small integer, a number between it and the next one, and infinity. -/
theorem compare_numbers_ascending :
    let u : Value := .int 2
    let v : Value := .float ⟨0x4004000000000000⟩
    let w : Value := .float (infinity false)
    ∃ a b c, u.number? = some a ∧ v.number? = some b ∧ w.number? = some c ∧
      u.compare v = some (cmp a b) ∧ Composes u v w := by
  intro u v w
  have hv : v.number? = some (exact ⟨0x4004000000000000⟩) :=
    number?_of_not_isNaN (by decide +kernel)
  have hw : w.number? = some (infinity false).exact :=
    number?_of_not_isNaN (by decide +kernel)
  have hsmall {u' v' : Value} (hu : ∀ i, u' = .int i → i = 2) (hv : ∀ i, v' ≠ .int i) :
      ¬Merged u' v' := by
    intro h
    obtain ⟨i, hint | hint, hlarge⟩ := h.exists_int
    · rw [hu i hint] at hlarge
      exact absurd hlarge (by decide)
    · exact hv i hint
  have huv : ¬Merged u v := hsmall (fun i h => (Value.int.inj h).symm) nofun
  have huw : ¬Merged u w := hsmall (fun i h => (Value.int.inj h).symm) nofun
  have hvw : ¬Merged v w := hsmall nofun nofun
  obtain ⟨horder, -, -, -, hcomposes, hmerged, -⟩ := compare_numbers_iff (u := u) rfl hv hw
  refine ⟨_, _, _, rfl, hv, hw, horder.mpr huv, hcomposes fun hshared => ?_⟩
  rcases hmerged hshared with h | h | h
  · exact huv h
  · exact hvw h
  · exact huw h

/-- Two neighbouring integers are level with the float that means the lower one. -/
theorem compare_merges_neighbours :
    let u : Value := .int (2 ^ 53 + 1)
    let v : Value := .float ⟨0x4340000000000000⟩
    let w : Value := .int (2 ^ 53)
    ∃ a b, u.number? = some a ∧ v.number? = some b ∧ b < a ∧ u.compare v = some .eq ∧
      v.compare w = some .eq ∧ u.compare w = some .gt := by
  intro u v w
  have hv : v.number? = some (exact ⟨0x4340000000000000⟩) :=
    number?_of_not_isNaN (by decide +kernel)
  have hfloat : ofInt (2 ^ 53) = ⟨0x4340000000000000⟩ := by decide +kernel
  have hlower : exact ⟨0x4340000000000000⟩ = whole (2 ^ 53) := by
    rw [← hfloat]
    exact exact_ofInt_of_le (by decide)
  refine ⟨_, _, rfl, hv, ?_, by decide +kernel, by decide +kernel, by decide +kernel⟩
  rw [hlower]
  exact lt_of_not_ge fun h => absurd (whole_le_iff.mp h) (by decide)

end Value
end OrderedQuery
