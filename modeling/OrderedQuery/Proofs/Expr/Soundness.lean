import OrderedQuery.Proofs.Cursor.Terms
import OrderedQuery.Proofs.Plan.Semantics
import OrderedQuery.Proofs.Row.Types
import OrderedQuery.Proofs.Value.Basic

/-!
# Expressions of a type have values of that type

An expression demands something of each position it reads: a scalar of a type, or a row with a
field of a type.  On rows of the type it was checked for, and in environments that supply what it
demands, an expression has a value of its own type unless its arithmetic overflows or divides by
zero, or it compares a NaN.
-/

namespace OrderedQuery

/-! ## What goes structurally wrong -/

namespace Value

/-- A value conforms to a type if it is null or of that type. -/
theorem conforms_iff {v : Value} {type : ValueType} :
    v.conforms type = true ↔ v = .null ∨ v.type? = some type := by
  cases v <;> simp [conforms, type?]

theorem conforms_null (type : ValueType) : Value.null.conforms type = true := rfl

theorem conforms_of_type? {v : Value} {type : ValueType} (h : v.type? = some type) :
    v.conforms type = true :=
  conforms_iff.mpr (.inr h)

end Value

/-- The fault is that a NaN was compared. -/
def ValueFault.OfNaN : ValueFault → Prop
  | incomparable l r => l.IsNaN ∨ r.IsNaN
  | _ => False

/-- The error says that a plan, its bindings, its rows or the keys of its bounds do not fit
together. -/
def QueryError.Structural : QueryError → Prop
  | plan fault => ¬ fault.RefusesWriting
  | unbound _ => True
  | value fault => ¬ fault.OfNaN
  | index e => e.kind = "InvalidIndex" ∨ e.kind = "TypeMismatch"
  | _ => False

/-- The error is not structural. -/
abbrev QueryError.Circumstantial (e : QueryError) : Prop := ¬ e.Structural

theorem QueryError.Operational.circumstantial {e : QueryError} (h : e.Operational) :
    e.Circumstantial := by
  cases e with
  | plan fault => exact not_not.mpr h
  | value | overflow | divisionByZero | unknownFunction | unbound | index => exact h.elim
  | _ => exact not_false

/-- The kinds that structural errors are of. -/
def QueryError.structuralKinds : List String :=
  ["Plan", "UnboundBinding", "TypeMismatch", "Core.InvalidIndex", "Core.TypeMismatch"]

/-- A parallel map refuses to let its workers write, or a NaN was compared. -/
def QueryError.Excused : QueryError → Prop
  | plan fault => fault.RefusesWriting
  | value fault => fault.OfNaN
  | _ => False

/-- Errors of one of these kinds are structural unless they are excused. -/
theorem QueryError.Circumstantial.excused {e : QueryError} (h : e.Circumstantial)
    (hkind : e.kind ∈ structuralKinds) : e.Excused := by
  cases e with
  | plan | value => exact not_not.mp h
  | unbound => exact absurd trivial h
  | index e =>
      refine absurd ?_ h
      cases e with
      | mismatch => exact .inr rfl
      | badDraft | wrongKeyCount | tooManyValues | splitCoordinates => exact .inl rfl
      | _ => simp [kind, IndexError.kind, structuralKinds] at hkind
  | store e => cases e <;> simp [kind, StoreError.kind, structuralKinds] at hkind
  | _ => simp [kind, structuralKinds] at hkind

/-! ## Demands -/

/-- What is expected of a binding. -/
inductive Demand where
  /-- A scalar of a type. -/
  | scalar (type : ValueType)
  /-- A row with a field of a type. -/
  | field (i : Nat) (type : ValueType)
  deriving DecidableEq, Repr

/-- A binding is what is expected of it. -/
def Binding.Meets : Binding → Demand → Prop
  | value v, .scalar type => v.conforms type = true
  | row r, .field i type => ∃ v, r.value? i = some v ∧ v.conforms type = true
  | _, _ => False

/-- What an environment binds is what is expected of it. -/
def Env.Supplies (env : Env) (demands : List (Nat × Demand)) : Prop :=
  ∀ d ∈ demands, ∃ b, env.get? d.1 = some b ∧ b.Meets d.2

theorem Env.Supplies.subset {env : Env} {demands demands' : List (Nat × Demand)}
    (h : env.Supplies demands) (hsubset : demands' ⊆ demands) : env.Supplies demands' :=
  fun d hd => h d (hsubset hd)

/-- What an expression expects of the positions it reads, in the order of its text. -/
def Expr.demands : Expr → List (Nat × Demand)
  | bound position type => [(position, .scalar type)]
  | boundField position i type => [(position, .field i type)]
  | compare _ l r | and l r | or l r | arith _ l r => l.demands ++ r.demands
  | not e | isNull e => e.demands
  | field _ | literal _ | null _ => []

/-! ## Values of operations -/

namespace Value

/-- A number is a float, or becomes one. -/
theorem exists_asFloat? {v : Value} {type : ValueType} (hv : v.type? = some type)
    (htype : type.isNumeric = true) : ∃ x, v.asFloat? = some x := by
  cases v <;> cases hv
  case int i => exact ⟨_, rfl⟩
  case float x => exact ⟨_, rfl⟩
  all_goals cases htype

end Value

namespace Expr

/-- What is not null has the type it conforms to. -/
theorem type?_of_not_isNull {v : Value} {type : ValueType} (hv : v.conforms type = true)
    (hnull : v.isNull = false) : v.type? = some type := by
  rcases Value.conforms_iff.mp hv with rfl | htype
  · cases hnull
  · exact htype

/-- Why a comparison of two values has no truth value: one of them is a NaN. -/
inductive ComparisonFault : Value → Value → QueryError → Prop
  | nan {l r : Value} (h : l.IsNaN ∨ r.IsNaN) : ComparisonFault l r (.value (.incomparable l r))

/-- Why an operation on two values has no result: both are integers, and the divisor is zero or
the exact result does not fit in 64 bits. -/
inductive ArithmeticFault (op : Arithmetic) : Value → Value → QueryError → Prop
  | divisionByZero (a : Int64) (hdiv : op = .div) :
      ArithmeticFault op (.int a) (.int 0) .divisionByZero
  | overflow {a b : Int64} (hdivisor : ¬ (op = .div ∧ b = 0))
      (hexact : op.onInts a.toInt b.toInt < Int64.minValue.toInt ∨
        Int64.maxValue.toInt < op.onInts a.toInt b.toInt) :
      ArithmeticFault op (.int a) (.int b) (.overflow (.arithmetic op a.toInt b.toInt))

/-- The expressions an expression computes its value from. -/
def operands : Expr → List Expr
  | compare _ l r | and l r | or l r | arith _ l r => [l, r]
  | not e | isNull e => [e]
  | field _ | bound .. | boundField .. | literal _ | null _ => []

/-- An operation in the expression has values of its operands, but none of its own. -/
inductive Fails (row : Option Row) (env : Env) : Expr → QueryError → Prop
  | compare {op : Comparison} {l r : Expr} {x y : Value} {error : QueryError}
      (hl : l.eval row env = .ok x) (hr : r.eval row env = .ok y)
      (h : ComparisonFault x y error) : Fails row env (.compare op l r) error
  | arith {op : Arithmetic} {l r : Expr} {x y : Value} {error : QueryError}
      (hl : l.eval row env = .ok x) (hr : r.eval row env = .ok y)
      (h : ArithmeticFault op x y error) : Fails row env (.arith op l r) error
  | operand {e part : Expr} {error : QueryError} (hpart : part ∈ e.operands)
      (h : Fails row env part error) : Fails row env e error

variable {row : Option Row} {env : Env}

/-- No operation fails in a way that is structurally wrong. -/
theorem Fails.circumstantial {e : Expr} {error : QueryError} (h : e.Fails row env error) :
    error.Circumstantial := by
  induction h with
  | compare _ _ h =>
      obtain ⟨hnan⟩ := h
      exact not_not.mpr hnan
  | arith _ _ h =>
      cases h with
      | divisionByZero => exact not_false
      | overflow => exact not_false
  | operand _ _ ih => exact ih

theorem compareValues_yields (op : Comparison) {l r : Value} {a b : ValueType}
    (hl : l.conforms a = true) (hr : r.conforms b = true) (hab : a.comparable b = true) :
    Yields (ComparisonFault l r) (fun v => v.conforms .bool = true) (compareValues op l r) := by
  unfold compareValues
  split
  · exact .ok (Value.conforms_null _)
  · rename_i hnull
    obtain ⟨hlnull, hrnull⟩ := Bool.or_eq_false_iff.mp (Bool.eq_false_of_not_eq_true hnull)
    split
    · exact .ok rfl
    · rename_i hcompare
      refine .error (.nan ?_)
      exact Value.isNaN_of_compare (type?_of_not_isNull hl hlnull)
        (type?_of_not_isNull hr hrnull) hab hcompare

theorem arithmeticValue_yields (op : Arithmetic) {l r : Value} {a b type : ValueType}
    (hl : l.conforms a = true) (hr : r.conforms b = true)
    (htype : arithmeticType op a b = .ok type) :
    Yields (ArithmeticFault op l r) (fun v => v.conforms type = true)
      (arithmeticValue op l r) := by
  unfold arithmeticValue
  split
  · exact .ok (Value.conforms_null _)
  · rename_i hnull
    obtain ⟨hlnull, hrnull⟩ := Bool.or_eq_false_iff.mp (Bool.eq_false_of_not_eq_true hnull)
    have hltype := type?_of_not_isNull hl hlnull
    have hrtype := type?_of_not_isNull hr hrnull
    rw [arithmeticType] at htype
    by_cases hint : a = .int ∧ b = .int
    · obtain ⟨rfl, rfl⟩ := hint
      obtain ⟨i, rfl⟩ := Value.eq_int_of_type? hltype
      obtain ⟨j, rfl⟩ := Value.eq_int_of_type? hrtype
      obtain rfl := Except.ok.inj htype
      dsimp only
      split
      · rename_i hzero
        obtain ⟨hdiv, rfl⟩ := hzero
        exact .error (.divisionByZero i hdiv)
      · rename_i hdivisor
        split
        · exact .ok rfl
        · rename_i hresult
          exact .error (.overflow hdivisor (Value.int64?_eq_none_iff.mp hresult))
    · rw [if_neg hint] at htype
      obtain ⟨hnumeric, rfl⟩ : (a.isNumeric && b.isNumeric) = true ∧ type = .float := by
        split at htype
        · exact ⟨‹_›, (Except.ok.inj htype).symm⟩
        · cases htype
      obtain ⟨ha, hb⟩ := (Bool.and_eq_true _ _).mp hnumeric
      obtain ⟨x, hx⟩ := Value.exists_asFloat? hltype ha
      obtain ⟨y, hy⟩ := Value.exists_asFloat? hrtype hb
      split
      · exact absurd ⟨(Option.some.inj hltype).symm, (Option.some.inj hrtype).symm⟩ hint
      · rw [hx, hy]
        exact .ok rfl

/-- A value of the type of truth values has a truth value. -/
theorem truth_yields (E : QueryError → Prop) {v : Value} (hv : v.conforms .bool = true) :
    Yields E (fun _ => True) (truth v) := by
  cases v with
  | null | bool => exact .ok trivial
  | _ => cases hv

theorem conforms_ofTruth (t : Option Bool) : (ofTruth t).conforms .bool = true := by
  cases t <;> rfl

theorem requireBool_eq_ok {type : ValueType} (h : requireBool type = .ok ()) : type = .bool := by
  rw [requireBool] at h
  split at h
  · assumption
  · cases h

/-- Both sides of a conjunction or disjunction are truth values, and so is the whole. -/
theorem types_of_connective {input : RowType} {l r : Expr} {type : ValueType}
    (h : (and l r).type input = .ok type) :
    l.type input = .ok .bool ∧ r.type input = .ok .bool ∧ type = .bool := by
  obtain ⟨a, ha, h⟩ := Except.bind_eq_ok_iff.mp h
  obtain ⟨⟨⟩, hla, h⟩ := Except.bind_eq_ok_iff.mp h
  obtain ⟨b, hb, h⟩ := Except.bind_eq_ok_iff.mp h
  obtain ⟨⟨⟩, hrb, h⟩ := Except.bind_eq_ok_iff.mp h
  obtain rfl := requireBool_eq_ok hla
  obtain rfl := requireBool_eq_ok hrb
  exact ⟨ha, hb, (Except.ok.inj h).symm⟩

/-- The fields of a type are there, and hold what they should, if there is a row. -/
def Covers (input : RowType) (row : Option Row) : Prop :=
  ∀ i type, input.field? i = some type →
    ∃ r v, row = some r ∧ r.value? i = some v ∧ v.conforms type = true

/-- What becomes of an operand: it has a value of its type, or it fails, and the whole with it. -/
theorem operand_yields {e part : Expr} {type : ValueType} (hpart : part ∈ e.operands)
    (h : Yields (part.Fails row env) (fun v => v.conforms type = true) (part.eval row env)) :
    Yields (e.Fails row env) (fun v => v.conforms type = true ∧ part.eval row env = .ok v)
      (part.eval row env) :=
  h.self.mono (fun _ => .operand hpart) fun _ => id

/-- An operation on two operands is carried out on the values of both, unless one of them
fails. -/
theorem operands_yield {e l r : Expr} (hoperands : e.operands = [l, r]) {a b : ValueType}
    (hl : Yields (l.Fails row env) (fun v => v.conforms a = true) (l.eval row env))
    (hr : Yields (r.Fails row env) (fun v => v.conforms b = true) (r.eval row env))
    {V : Value → Prop} {operation : Value → Value → Except QueryError Value}
    (h : ∀ x y, x.conforms a = true → y.conforms b = true → l.eval row env = .ok x →
      r.eval row env = .ok y → Yields (e.Fails row env) V (operation x y)) :
    Yields (e.Fails row env) V (do
      let x ← l.eval row env
      let y ← r.eval row env
      operation x y) := by
  have hleft : l ∈ e.operands := by simp [hoperands]
  have hright : r ∈ e.operands := by simp [hoperands]
  refine (operand_yields hleft hl).bind ?_
  rintro x ⟨hx, hlx⟩
  refine (operand_yields hright hr).bind ?_
  rintro y ⟨hy, hry⟩
  exact h x y hx hy hlx hry

theorem field_yields {input : RowType} (hrow : Covers input row) {i : Nat} {type : ValueType}
    (htype : (field i).type input = .ok type) (E : QueryError → Prop) :
    Yields E (fun v => v.conforms type = true) ((field i).eval row env) := by
  rw [Expr.type] at htype
  split at htype
  · rename_i hfield
    obtain rfl := Except.ok.inj htype
    obtain ⟨r, v, rfl, hv, hconforms⟩ := hrow i _ hfield
    rw [eval, hv]
    exact .ok hconforms
  · cases htype

/-- A position that holds a scalar of the type. -/
theorem bound_yields {position : Nat} {type : ValueType}
    (henv : env.Supplies (bound position type).demands) (E : QueryError → Prop) :
    Yields E (fun v => v.conforms type = true) ((bound position type).eval row env) := by
  obtain ⟨b, hb, hmeets⟩ := henv _ List.mem_cons_self
  rw [eval, Env.value, hb]
  cases b with
  | value v => exact .ok hmeets
  | row r => cases hmeets

/-- A position that holds a row with a field of the type. -/
theorem boundField_yields {position i : Nat} {type : ValueType}
    (henv : env.Supplies (boundField position i type).demands) (E : QueryError → Prop) :
    Yields E (fun v => v.conforms type = true) ((boundField position i type).eval row env) := by
  obtain ⟨b, hb, hmeets⟩ := henv _ List.mem_cons_self
  rw [eval, Env.row, hb]
  cases b with
  | value v => cases hmeets
  | row r =>
      obtain ⟨v, hv, hconforms⟩ := hmeets
      refine .bind (V := fun r' => r' = r) (.ok rfl) ?_
      rintro _ rfl
      rw [hv]
      exact .ok hconforms

/-- An expression of a type has a value of that type unless one of its operations fails. -/
theorem eval_yields_or_fails {input : RowType} (hrow : Covers input row)
    {e : Expr} {type : ValueType} (htype : e.type input = .ok type)
    (henv : env.Supplies e.demands) :
    Yields (e.Fails row env) (fun v => v.conforms type = true) (e.eval row env) := by
  induction e generalizing type with
  | field i => exact field_yields hrow htype _
  | bound position τ =>
      obtain rfl := Except.ok.inj htype
      exact bound_yields henv _
  | boundField position i τ =>
      obtain rfl := Except.ok.inj htype
      exact boundField_yields henv _
  | literal v =>
      rw [Expr.type] at htype
      split at htype
      · rename_i hv
        obtain rfl := Except.ok.inj htype
        exact .ok (Value.conforms_of_type? hv)
      · cases htype
  | null τ =>
      obtain rfl := Except.ok.inj htype
      exact .ok (Value.conforms_null τ)
  | compare op l r hl hr =>
      obtain ⟨a, ha, htype⟩ := Except.bind_eq_ok_iff.mp htype
      obtain ⟨b, hb, htype⟩ := Except.bind_eq_ok_iff.mp htype
      have hleft := hl ha (henv.subset (List.subset_append_left _ _))
      have hright := hr hb (henv.subset (List.subset_append_right _ _))
      rw [comparisonType] at htype
      split at htype
      · rename_i hab
        obtain rfl := Except.ok.inj htype
        refine operands_yield rfl hleft hright ?_
        intro x y hx hy hlx hry
        exact (compareValues_yields op hx hy hab).mono (fun _ => .compare hlx hry) fun _ => id
      · cases htype
  | and l r hl hr | or l r hl hr =>
      obtain ⟨hltype, hrtype, rfl⟩ := types_of_connective htype
      have hleft := hl hltype (henv.subset (List.subset_append_left _ _))
      have hright := hr hrtype (henv.subset (List.subset_append_right _ _))
      refine (operand_yields List.mem_cons_self hleft).bind ?_
      rintro x ⟨hx, -⟩
      refine (truth_yields _ hx).bind fun a _ => ?_
      split
      · -- the right side is not evaluated, so nothing is asked of it
        exact .ok rfl
      · refine (operand_yields (.tail _ List.mem_cons_self) hright).bind ?_
        rintro y ⟨hy, -⟩
        exact (truth_yields _ hy).bind fun b _ => .ok (conforms_ofTruth _)
  | not e ih =>
      obtain ⟨a, ha, htype⟩ := Except.bind_eq_ok_iff.mp htype
      obtain ⟨⟨⟩, hbool, htype⟩ := Except.bind_eq_ok_iff.mp htype
      obtain rfl := requireBool_eq_ok hbool
      obtain rfl := Except.ok.inj htype
      refine (operand_yields List.mem_cons_self (ih ha henv)).bind ?_
      rintro x ⟨hx, -⟩
      exact (truth_yields _ hx).bind fun t _ => .ok (conforms_ofTruth _)
  | isNull e ih =>
      obtain ⟨a, ha, htype⟩ := Except.bind_eq_ok_iff.mp htype
      obtain rfl := Except.ok.inj htype
      exact (operand_yields List.mem_cons_self (ih ha henv)).bind fun x _ => .ok rfl
  | arith op l r hl hr =>
      obtain ⟨a, ha, htype⟩ := Except.bind_eq_ok_iff.mp htype
      obtain ⟨b, hb, htype⟩ := Except.bind_eq_ok_iff.mp htype
      have hleft := hl ha (henv.subset (List.subset_append_left _ _))
      have hright := hr hb (henv.subset (List.subset_append_right _ _))
      refine operands_yield rfl hleft hright ?_
      intro x y hx hy hlx hry
      -- the values of both operands are at hand: a failure of the operation is about them
      exact (arithmeticValue_yields op hx hy htype).mono (fun _ => .arith hlx hry) fun _ => id

theorem eval_yields {input : RowType} (hrow : Covers input row)
    {e : Expr} {type : ValueType} (htype : e.type input = .ok type)
    (henv : env.Supplies e.demands) :
    Yields QueryError.Circumstantial (fun v => v.conforms type = true) (e.eval row env) :=
  (eval_yields_or_fails hrow htype henv).mono (fun _ => Fails.circumstantial) fun _ => id

/-- Without fields, there is no need of a row. -/
theorem eval_of_not_readsFields {e : Expr} (h : e.readsFields = false) (row : Row) (env : Env) :
    e.eval (some row) env = e.eval none env := by
  induction e with
  | field i => cases h
  | bound | boundField | literal | null => rfl
  | compare op l r hl hr | and l r hl hr | or l r hl hr | arith op l r hl hr =>
      obtain ⟨hleft, hright⟩ := Bool.or_eq_false_iff.mp h
      rw [eval, eval, hl hleft, hr hright]
  | not e ih | isNull e ih => rw [eval, eval, ih h]

/-- Without fields, the type does not depend on the row. -/
theorem type_of_not_readsFields {e : Expr} (h : e.readsFields = false) (input input' : RowType) :
    e.type input = e.type input' := by
  induction e with
  | field i => cases h
  | bound | boundField | literal | null => rfl
  | compare op l r hl hr | and l r hl hr | or l r hl hr | arith op l r hl hr =>
      obtain ⟨hleft, hright⟩ := Bool.or_eq_false_iff.mp h
      rw [Expr.type, Expr.type, hl hleft, hr hright]
  | not e ih | isNull e ih => rw [Expr.type, Expr.type, ih h]

end Expr

theorem RowType.Describes.covers {t : RowType} {row : Row} (h : t.Describes row.values) :
    Expr.Covers t (some row) := by
  intro i type htype
  have hi : i < row.values.length := by
    rw [List.Forall₂.length_eq h]
    exact (List.getElem?_eq_some_iff.mp htype).1
  obtain ⟨hi', rfl⟩ := List.getElem?_eq_some_iff.mp htype
  exact ⟨row, row.values[i], rfl, List.getElem?_eq_getElem hi,
    (List.forall₂_iff_get.mp h).2 i hi hi'⟩

theorem Row.Fits.covers {t : RowType} {row : Row} (h : row.Fits t) : Expr.Covers t (some row) :=
  h.describes.covers

namespace Expr

/-- An expression of a type is evaluated on a row that fits the input, or on none if it reads no
field, in an environment that supplies what it demands.  Then it has a value of its type, unless
an operation on integers in it overflows or divides by zero, or a comparison in it meets a
NaN. -/
theorem eval_typed {input : RowType} {row : Option Row} {env : Env} {e : Expr}
    {type : ValueType} (htype : e.type input = .ok type)
    (hrow : ∀ r, row = some r → input.check r.values = .ok ())
    (hnone : row = none → e.readsFields = false) (henv : env.Supplies e.demands) :
    (∃ v, e.eval row env = .ok v ∧ v.conforms type = true) ∨
      ∃ error, e.eval row env = .error error ∧ e.Fails row env error := by
  have hyields : Yields (e.Fails row env) (fun v => v.conforms type = true)
      (e.eval row env) := by
    cases row with
    | some r =>
        have hdescribes := RowType.check_eq_ok_iff.mp (hrow r rfl)
        exact eval_yields_or_fails hdescribes.covers htype henv
    | none =>
        have hcovers : Covers (.ofFields []) none := fun i type h => by cases h
        rw [type_of_not_readsFields (hnone rfl) input (.ofFields [])] at htype
        exact eval_yields_or_fails hcovers htype henv
  cases hresult : e.eval row env with
  | ok v => exact .inl ⟨v, rfl, (hresult ▸ hyields).of_ok⟩
  | error error => exact .inr ⟨error, rfl, (hresult ▸ hyields).of_error⟩

/-- The right side is evaluated, and overflows, because the truth of the left side is unknown.
Without a row, a division by null is null. -/
theorem eval_typed_overflow :
    let input : RowType := .ofFields [.int, .float]
    let row : Row := ⟨input, [.int 4, .null], rfl⟩
    let env : Env := ⟨[(0, .value (.int Int64.maxValue))], []⟩
    let e : Expr := or (compare .lt (field 1) (literal (.float .nan)))
      (compare .eq (arith .add (field 0) (bound 0 .int)) (literal (.int 0)))
    (∃ error, e.eval (some row) env = .error error ∧ e.Fails (some row) env error) ∧
      ∃ v, (arith .div (bound 0 .int) (null .int)).eval none env = .ok v ∧
        v.conforms .int = true := by
  intro input row env e
  have hsupplies {demands : List (Nat × Demand)} (h : demands = [(0, .scalar .int)]) :
      env.Supplies demands := by
    intro d hd
    rw [h, List.mem_singleton] at hd
    subst hd
    exact ⟨_, rfl, rfl⟩
  constructor
  · have htype : e.type input = .ok .bool := rfl
    have hrow (r : Row) (h : some row = some r) : input.check r.values = .ok () := by
      obtain rfl := Option.some.inj h
      rfl
    refine (eval_typed htype hrow nofun (hsupplies rfl)).resolve_left ?_
    rintro ⟨v, hv, -⟩
    cases hv
  · have htype : (arith .div (bound 0 .int) (null .int)).type input = .ok .int := rfl
    have hrow (r : Row) (h : none = some r) : input.check r.values = .ok () := by cases h
    refine (eval_typed htype hrow (fun _ => rfl) (hsupplies rfl)).resolve_right ?_
    rintro ⟨error, herror, -⟩
    cases herror

end Expr
end OrderedQuery
