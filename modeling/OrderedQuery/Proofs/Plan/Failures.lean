import OrderedQuery.Plan.Cursor

/-!
# How computations on data fail

Expressions, rows, keys, sorts and the aggregate functions that are built in fail with errors of
their own, which tell what is wrong with the data.  They never report a cancellation or a refused
call, and never end the thread that runs them.
-/

namespace OrderedQuery

variable {α β : Type}

/-- A computation that fails does so with an error of a certain kind. -/
def FailsWith (P : QueryError → Prop) (x : Except QueryError α) : Prop :=
  ∀ e, x = .error e → P e

namespace FailsWith

variable {P Q : QueryError → Prop} {x : Except QueryError α} {e : QueryError}

theorem ok (a : α) : FailsWith P (.ok a) := fun _ he => by cases he

theorem error (h : P e) : FailsWith P (.error e : Except QueryError α) := by
  rintro _ ⟨⟩
  exact h

theorem of_error (h : FailsWith P (.error e : Except QueryError α)) : P e := h e rfl

theorem mono (h : FailsWith P x) (hPQ : ∀ e, P e → Q e) : FailsWith Q x :=
  fun e he => hPQ e (h e he)

/-- Two computations, one after the other. -/
theorem bind {f : α → Except QueryError β} (hx : FailsWith P x) (hf : ∀ a, FailsWith P (f a)) :
    FailsWith P (x >>= f) := by
  cases x with
  | error e => exact .error hx.of_error
  | ok a => exact hf a

theorem map (hx : FailsWith P x) (f : α → β) : FailsWith P (x.map f) := by
  cases x with
  | error e => exact .error hx.of_error
  | ok a => exact .ok (f a)

theorem firstError {a b : Except QueryError Unit} (ha : FailsWith P a) (hb : FailsWith P b) :
    FailsWith P (firstError a b) := by
  cases a with
  | error e => exact ha
  | ok _ => exact hb

end FailsWith

/-- A computation that fails with errors of one kind and returns values of another. -/
inductive Yields (E : QueryError → Prop) (V : α → Prop) :
    Except QueryError α → Prop
  | error {e : QueryError} (he : E e) : Yields E V (.error e)
  | ok {a : α} (ha : V a) : Yields E V (.ok a)

namespace Yields

variable {E E' : QueryError → Prop} {V : α → Prop} {U : β → Prop}
  {x : Except QueryError α}

theorem of_ok {a : α} (h : Yields E V (.ok a)) : V a := by
  cases h with
  | ok ha => exact ha

theorem of_error {e : QueryError} (h : Yields E V (.error e : Except QueryError α)) : E e := by
  cases h with
  | error he => exact he

theorem mono {V' : α → Prop} (h : Yields E V x) (hE : ∀ e, E e → E' e) (hV : ∀ a, V a → V' a) :
    Yields E' V' x := by
  cases h with
  | error he => exact .error (hE _ he)
  | ok ha => exact .ok (hV _ ha)

theorem bind {f : α → Except QueryError β} (hx : Yields E V x)
    (hf : ∀ a, V a → Yields E U (f a)) : Yields E U (x >>= f) := by
  cases hx with
  | error he => exact .error he
  | ok ha => exact hf _ ha

theorem map {f : α → β} (hx : Yields E V x) (hf : ∀ a, V a → U (f a)) :
    Yields E U (x.map f) := by
  cases hx with
  | error he => exact .error he
  | ok ha => exact .ok (hf _ ha)

/-- What is returned is known to be the result. -/
theorem self (h : Yields E V x) : Yields E (fun a => V a ∧ x = .ok a) x := by
  cases h with
  | error he => exact .error he
  | ok ha => exact .ok ⟨ha, rfl⟩

theorem failsWith (h : Yields E V x) : FailsWith E x := by
  cases h with
  | error he => exact .error he
  | ok _ => exact .ok _

theorem of_failsWith (h : FailsWith E x) : Yields E (fun _ => True) x := by
  cases x with
  | error e => exact .error h.of_error
  | ok a => exact .ok trivial

theorem firstError {a b : Except QueryError Unit} {V : Unit → Prop} (ha : Yields E V a)
    (hb : Yields E V b) : Yields E V (firstError a b) := by
  cases ha with
  | error he => exact .error he
  | ok _ => exact hb

end Yields

/-- The error tells what is wrong with data, or with a plan for them. -/
def QueryError.OfData : QueryError → Prop
  | plan _ | value _ | overflow _ | divisionByZero | unbound _ | resourceLimit .. | index _ => True
  | _ => False

/-- A computation that only fails on its data. -/
abbrev FailsOnData (x : Except QueryError α) : Prop := FailsWith QueryError.OfData x

/-! ## Expressions -/

theorem Env.value_failsOnData (env : Env) (position : Nat) : FailsOnData (env.value position) := by
  unfold Env.value
  split
  · exact .ok _
  · exact .error trivial
  · exact .error trivial

theorem Env.row_failsOnData (env : Env) (position : Nat) : FailsOnData (env.row position) := by
  unfold Env.row
  split
  · exact .ok _
  · exact .error trivial
  · exact .error trivial

namespace Expr

theorem truth_failsOnData (v : Value) : FailsOnData (truth v) := by
  unfold truth
  split
  · exact .ok _
  · exact .ok _
  · exact .error trivial

theorem compareValues_failsOnData (op : Comparison) (l r : Value) :
    FailsOnData (compareValues op l r) := by
  unfold compareValues
  split
  · exact .ok _
  · split
    · exact .ok _
    · exact .error trivial

theorem arithmeticValue_failsOnData (op : Arithmetic) (l r : Value) :
    FailsOnData (arithmeticValue op l r) := by
  unfold arithmeticValue
  split
  · exact .ok _
  · split
    · split
      · exact .error trivial
      · split
        · exact .ok _
        · exact .error trivial
    · split
      · exact .ok _
      · exact .error trivial

theorem eval_failsOnData (row : Option Row) (env : Env) (e : Expr) :
    FailsOnData (e.eval row env) := by
  induction e with
  | field i =>
      unfold eval
      split
      · exact .error trivial
      · split
        · exact .ok _
        · exact .error trivial
  | bound position type => exact env.value_failsOnData position
  | boundField position i type =>
      unfold eval
      refine .bind (env.row_failsOnData position) ?_
      intro r
      split
      · exact .ok _
      · exact .error trivial
  | literal v => exact .ok v
  | null type => exact .ok _
  | compare op l r hl hr =>
      exact .bind hl fun a => .bind hr fun b => compareValues_failsOnData op a b
  | and l r hl hr =>
      unfold eval
      refine .bind hl fun v => .bind (truth_failsOnData v) fun a => ?_
      split
      · exact .ok _
      · exact .bind hr fun v => .bind (truth_failsOnData v) fun b => .ok _
  | or l r hl hr =>
      unfold eval
      refine .bind hl fun v => .bind (truth_failsOnData v) fun a => ?_
      split
      · exact .ok _
      · exact .bind hr fun v => .bind (truth_failsOnData v) fun b => .ok _
  | not e he => exact .bind he fun v => .bind (truth_failsOnData v) fun a => .ok _
  | isNull e he => exact .bind he fun v => .ok _
  | arith op l r hl hr =>
      exact .bind hl fun a => .bind hr fun b => arithmeticValue_failsOnData op a b

end Expr

/-! ## Rows and keys -/

theorem RowType.checkFields_failsOnData (i : Nat) (types : List ValueType) (values : List Value) :
    FailsOnData (checkFields i types values) := by
  induction types generalizing i values with
  | nil => exact .ok _
  | cons type types ih =>
      cases values with
      | nil => exact .ok _
      | cons v values =>
          unfold checkFields
          split
          · exact ih (i + 1) values
          · exact .error trivial

theorem Row.ofValues_failsOnData (type : RowType) (values : List Value) :
    FailsOnData (ofValues type values) := by
  have hcheck : FailsOnData (type.check values) := by
    unfold RowType.check
    split
    · exact .error trivial
    · exact RowType.checkFields_failsOnData 0 type.fields values
  unfold ofValues
  split
  · exact .ok _
  · rename_i e heq
    exact .error (hcheck e heq)

theorem Projection.evalOn_failsOnData (row : Row) (env : Env) (es : List Expr) :
    FailsOnData (evalOn row env es) := by
  induction es with
  | nil => exact .ok _
  | cons e es ih => exact .bind (e.eval_failsOnData _ env) fun v => .bind ih fun vs => .ok _

theorem Projection.apply_failsOnData (p : Projection) (env : Env) (row : Row) :
    FailsOnData (p.apply env row) :=
  .bind (evalOn_failsOnData row env p.exprs) fun values => Row.ofValues_failsOnData _ values

namespace IndexScan

theorem mapError_failsOnData (x : Except IndexError α) : FailsOnData (x.mapError .index) := by
  cases x with
  | error e => exact .error trivial
  | ok a => exact .ok a

theorem evalAll_failsOnData (env : Env) (es : List Expr) : FailsOnData (evalAll env es) := by
  induction es with
  | nil => exact .ok _
  | cons e es ih => exact .bind (e.eval_failsOnData _ env) fun v => .bind ih fun vs => .ok _

theorem encodeBound_failsOnData (s : IndexScan) (env : Env) (b : Option ScanBound) :
    FailsOnData (s.encodeBound env b) := by
  cases b with
  | none => exact .ok _
  | some b =>
      exact .bind (evalAll_failsOnData env b.values) fun values =>
        .bind (mapError_failsOnData _) fun key => .ok _

theorem keyRange_failsOnData (s : IndexScan) (env : Env) : FailsOnData (s.keyRange env) := by
  unfold keyRange
  refine .bind (s.encodeBound_failsOnData env _) fun low =>
    .bind (s.encodeBound_failsOnData env _) fun high => ?_
  simp only
  split
  · exact .ok _
  · exact .ok _

end IndexScan

theorem Sorting.checkLimit_failsOnData (s : Sorting) (allowed : Nat) :
    FailsOnData (s.checkLimit allowed) := by
  unfold checkLimit
  split
  · exact .error trivial
  · exact .ok _

/-! ## Aggregate functions -/

namespace AggregateFunction

theorem keepOnError_failsOnData {state : List Value} {x : Except QueryError (List Value)}
    (h : FailsOnData x) : FailsOnData (keepOnError state x).1 := by
  cases x with
  | error e => exact .error h.of_error
  | ok state' => exact .ok _

theorem intState_failsOnData (fault : OverflowFault) (n : Int) :
    FailsOnData (intState fault n) := by
  unfold intState
  split
  · exact .ok _
  · exact .error trivial

theorem sumStep_failsOnData (state : List Value) (v : Value) : FailsOnData (sumStep state v) := by
  unfold sumStep
  split
  · exact .ok _
  · exact .ok _
  · exact intState_failsOnData _ _
  · exact .ok _
  · exact .error trivial

theorem bestStep_failsOnData (better : Ordering) (state : List Value) (v : Value) :
    FailsOnData (bestStep better state v) := by
  unfold bestStep
  split
  · split
    · exact .ok _
    · exact .error trivial
  · exact .ok _

/-- The functions that are there from the start fail on their data only. -/
theorem update_failsOnData {f : AggregateFunction} (h : f ∈ builtins) (state : List Value)
    (v : Value) : FailsOnData (f.update state v).1 := by
  simp only [builtins, List.mem_cons, List.not_mem_nil, or_false] at h
  rcases h with rfl | rfl | rfl | rfl
  · exact keepOnError_failsOnData (intState_failsOnData _ _)
  · exact keepOnError_failsOnData (sumStep_failsOnData state v)
  · exact keepOnError_failsOnData (bestStep_failsOnData .lt state v)
  · exact keepOnError_failsOnData (bestStep_failsOnData .gt state v)

end AggregateFunction

namespace Grouping

/-- A row is given to functions only. -/
theorem feed_failsWith {P : QueryError → Prop} (row : Row) (calls : List AggregateCall)
    (h : ∀ c ∈ calls, ∀ state v, FailsWith P (c.function.update state v).1) (slots : List Slot) :
    FailsWith P (feed row calls slots).1 := by
  induction calls generalizing slots with
  | nil => exact .ok _
  | cons c calls ih =>
      have hrest := ih fun c' hc' => h c' (List.mem_cons_of_mem c hc')
      cases slots with
      | nil => exact .ok _
      | cons slot slots =>
          unfold feed
          split
          · exact hrest slots
          · rename_i v hv
            have hupdate := h c List.mem_cons_self slot.state v
            generalize c.function.update slot.state v = x at hupdate ⊢
            obtain ⟨e | _, state⟩ := x
            · exact .error hupdate.of_error
            · exact hrest slots

theorem rowOf_failsOnData (g : Grouping) (key : List Value) (slots : List Slot) :
    FailsOnData (g.rowOf key slots) :=
  Row.ofValues_failsOnData _ _

end Grouping

/-! ## Cursors -/

theorem IndexScanCursor.rowOf_failsOnData (scan : IndexScan) (key : Bytes) :
    FailsOnData (rowOf scan key) :=
  .bind (IndexScan.mapError_failsOnData _) fun values => Row.ofValues_failsOnData _ values

namespace AggregateCursor

theorem emit_failsOnData (g : Grouping) (p : Progress) : FailsOnData (emit g p).1 := by
  unfold emit
  cases p.group with
  | none => exact .ok _
  | some key => exact (g.rowOf_failsOnData key p.slots).map some

/-- Taking a row fails on data, or as one of the functions does. -/
theorem take_failsWith {P : QueryError → Prop} {g : Grouping} (hdata : ∀ e, e.OfData → P e)
    (hg : ∀ c ∈ g.calls, ∀ state v, FailsWith P (c.function.update state v).1) (row : Row)
    (p : Progress) : ∀ e, (take g row p).1 = .failed e → P e := by
  have hfed : ∀ {p p' e}, feed g row p = (.error e, p') → P e := by
    intro p p' e hfeed
    have hresult : FailsWith P (feed g row p).1 := Grouping.feed_failsWith row g.calls hg p.slots
    rw [hfeed] at hresult
    exact hresult.of_error
  unfold take
  cases p.group with
  | none =>
      dsimp only
      rcases hfeed : feed g row (startGroup g row p) with ⟨e | _, p'⟩
      · rintro _ ⟨⟩
        exact hfed hfeed
      · rintro _ ⟨⟩
  | some key =>
      dsimp only
      split
      · rcases hfeed : feed g row p with ⟨e | _, p'⟩
        · rintro _ ⟨⟩
          exact hfed hfeed
        · rintro _ ⟨⟩
      · have hresult := emit_failsOnData g p
        generalize emit g p = x at hresult
        obtain ⟨e | finished, p'⟩ := x
        · rintro _ ⟨⟩
          exact hdata _ hresult.of_error
        · dsimp only
          rcases hfeed : feed g row (startGroup g row p') with ⟨e | _, p''⟩
          · rintro _ ⟨⟩
            exact hfed hfeed
          · rintro _ ⟨⟩

end AggregateCursor
end OrderedQuery
