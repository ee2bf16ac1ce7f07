import OrderedQuery.Proofs.Plan.TypedOperators

/-!
# The rows of groups have the announced types

A function that is built in keeps at most one value, which is of the type announced for its result.
So each slot of a group that is open holds a value of its type, whatever rows are taken, and also
after a value was refused; and the row of a group is described by the row type of the grouping.
-/

namespace OrderedQuery
namespace AggregateFunction

variable {f : AggregateFunction} {argument : Option ValueType} {type : ValueType}

/-- At most one value is kept, and it is of the given type. -/
def Held (type : ValueType) (state : List Value) : Prop :=
  state = [] ∨ ∃ v, state = [v] ∧ v.type? = some type

theorem Held.conforms {state : List Value} (h : Held type state) :
    (heldValue state).conforms type = true := by
  rcases h with rfl | ⟨v, rfl, hv⟩
  · exact Value.conforms_null type
  · exact Value.conforms_of_type? hv

/-- A state is kept as it was if the next one is refused. -/
theorem keepOnError_held {state : List Value} {x : Except QueryError (List Value)}
    (hstate : Held type state) (hx : Yields QueryError.Circumstantial (Held type) x) :
    FailsWith QueryError.Circumstantial (keepOnError state x).1 ∧
      Held type (keepOnError state x).2 := by
  cases hx with
  | error he => exact ⟨.error he, hstate⟩
  | ok hnext => exact ⟨.ok (), hnext⟩

theorem intState_yields (fault : OverflowFault) (n : Int) :
    Yields QueryError.Circumstantial (Held .int) (intState fault n) := by
  rw [intState]
  split
  · rename_i i _
    exact .ok (.inr ⟨.int i, rfl, rfl⟩)
  · exact .error not_false

theorem sumStep_yields {state : List Value} {v : Value} (htype : type.isNumeric = true)
    (hstate : Held type state) (hv : v.type? = some type) :
    Yields QueryError.Circumstantial (Held type) (sumStep state v) := by
  rcases hstate with rfl | ⟨a, rfl, ha⟩
  · cases v with
    | int | float => exact .ok (.inr ⟨_, rfl, hv⟩)
    | null => cases hv
    | _ =>
        obtain rfl := Option.some.inj hv
        cases htype
  · cases v with
    | int j =>
        cases a <;> cases hv <;> cases ha
        exact intState_yields _ _
    | float y =>
        cases a <;> cases hv <;> cases ha
        exact .ok (.inr ⟨_, rfl, rfl⟩)
    | null => cases hv
    | _ =>
        obtain rfl := Option.some.inj hv
        cases htype

theorem bestStep_yields (better : Ordering) {state : List Value} {v : Value}
    (hstate : Held type state) (hv : v.type? = some type) :
    Yields QueryError.Circumstantial (Held type) (bestStep better state v) := by
  rcases hstate with rfl | ⟨best, rfl, hbest⟩
  · exact .ok (.inr ⟨v, rfl, hv⟩)
  · rw [bestStep]
    split
    · split
      · exact .ok (.inr ⟨v, rfl, hv⟩)
      · exact .ok (.inr ⟨best, rfl, hbest⟩)
    · rename_i hcompare
      refine .error (not_not.mpr ?_)
      exact Value.isNaN_of_compare hv hbest (by simp [ValueType.comparable]) hcompare

/-- A function whose result is announced to be of a type keeps values of that type, starts with
none or one of them, and has one for a group without values. -/
structure Announces (f : AggregateFunction) (argument : Option ValueType) (type : ValueType) :
    Prop where
  initial : Held type f.initial
  empty : f.emptyValue.conforms type = true
  finish : ∀ state, Held type state → (f.finish state).conforms type = true
  update : ∀ state v, Held type state → v.type? = some (argument.getD .bool) →
    FailsWith QueryError.Circumstantial (f.update state v).1 ∧ Held type (f.update state v).2

theorem best_announces {name : String} {better : Ordering}
    (h : (best name better).resultType argument = .ok type) :
    (best name better).Announces argument type := by
  cases argument with
  | none => cases h
  | some a =>
      obtain rfl := Except.ok.inj h
      exact ⟨.inl rfl, Value.conforms_null a, fun _ hstate => hstate.conforms,
        fun _ _ hstate hv => keepOnError_held hstate (bestStep_yields better hstate hv)⟩

/-- The functions that are there from the start keep what they announce. -/
theorem announces_of_mem_builtins (hf : f ∈ builtins) (h : f.resultType argument = .ok type) :
    f.Announces argument type := by
  simp only [builtins, List.mem_cons, List.not_mem_nil, or_false] at hf
  rcases hf with rfl | rfl | rfl | rfl
  · obtain rfl := Except.ok.inj h
    exact ⟨.inr ⟨.int 0, rfl, rfl⟩, rfl, fun _ hstate => hstate.conforms,
      fun _ _ hstate _ => keepOnError_held hstate (intState_yields _ _)⟩
  · cases argument with
    | none => cases h
    | some a =>
        have hnumeric : a.isNumeric = true ∧ a = type := by
          rw [sum] at h
          dsimp only at h
          split at h
          · rename_i ha
            exact ⟨ha, Except.ok.inj h⟩
          · cases h
        obtain ⟨ha, rfl⟩ := hnumeric
        exact ⟨.inl rfl, Value.conforms_null a, fun _ hstate => hstate.conforms,
          fun _ _ hstate hv => keepOnError_held hstate (sumStep_yields ha hstate hv)⟩
  · exact best_announces h
  · exact best_announces h

end AggregateFunction

theorem Registry.mem_builtins_of_get {name : String} {f : AggregateFunction}
    (h : Registry.builtins.get name = .ok f) : f ∈ AggregateFunction.builtins := by
  rw [get] at h
  split at h
  · rename_i g hg
    obtain rfl := Except.ok.inj h
    exact List.mem_reverse.mp (List.mem_of_find?_eq_some hg)
  · cases h

/-- The functions that are there from the start are found by their names. -/
theorem Registry.get_of_mem_builtins {f : AggregateFunction}
    (hf : f ∈ AggregateFunction.builtins) : Registry.builtins.get f.name = .ok f := by
  simp only [AggregateFunction.builtins, List.mem_cons, List.not_mem_nil, or_false] at hf
  simp only [get, get?, fold_beq]
  rcases hf with rfl | rfl | rfl | rfl <;> rfl

namespace Grouping

open AggregateFunction (Held)

/-- On rows of a type, a call takes values of the type for which its function announces a
result. -/
def Calls (input : RowType) (c : AggregateCall) (type : ValueType) : Prop :=
  ∃ argument, c.function.Announces argument type ∧
    ∀ row : Row, row.Fits input → ∀ v ∈ taken? c row, v.type? = some (argument.getD .bool)

/-- A slot holds a value of a type. -/
def Holds (slot : Slot) (type : ValueType) : Prop := Held type slot.state

/-- The values that a function is given if its result is announced for an argument of a type, or
for no argument. -/
def Suits : Option ValueType → Value → Prop
  | none, v => v = .bool true
  | some type, v => v.type? = some type

theorem Suits.type {argument : Option ValueType} {v : Value} (h : Suits argument v) :
    v.type? = some (argument.getD .bool) := by
  cases argument with
  | none =>
      obtain rfl : v = .bool true := h
      rfl
  | some type => exact h

/-- What a call was looked up as: a function of its name, with a result that is announced to be of
a type for the values that it takes from the rows of the input. -/
structure Resolves (registry : Registry) (input : RowType) (call : String × Option Nat)
    (c : AggregateCall) (type : ValueType) : Prop where
  name : c.name = call.1
  argument : c.argument = call.2
  function : registry.get call.1 = .ok c.function
  announced : ∃ argument, c.function.resultType argument = .ok type ∧
    ∀ row : Row, row.Fits input → ∀ v ∈ taken? c row, Suits argument v

theorem resolves_of_resolve {registry : Registry} {input : RowType}
    {calls : List (String × Option Nat)} {resolved : List (AggregateCall × ValueType)}
    (h : resolve registry input calls = .ok resolved) :
    List.Forall₂ (fun call r => Resolves registry input call r.1 r.2) calls resolved := by
  induction calls generalizing resolved with
  | nil =>
      obtain rfl := Except.ok.inj h
      exact .nil
  | cons call calls ih =>
      obtain ⟨name, argument⟩ := call
      obtain ⟨f, hf, h⟩ := Except.bind_eq_ok_iff.mp h
      have hresolved (type? : Option ValueType)
          (htaken : ∀ row : Row, row.Fits input → ∀ v ∈ taken? ⟨name, argument, f⟩ row,
            Suits type? v)
          (h : (do
            let result ← f.resultType type?
            let calls ← resolve registry input calls
            .ok ((AggregateCall.mk name argument f, result) :: calls)) = .ok resolved) :
          List.Forall₂ (fun call r => Resolves registry input call r.1 r.2)
            ((name, argument) :: calls) resolved := by
        obtain ⟨type, htype, h⟩ := Except.bind_eq_ok_iff.mp h
        obtain ⟨rest, hrest, h⟩ := Except.bind_eq_ok_iff.mp h
        obtain rfl := Except.ok.inj h
        exact .cons ⟨rfl, rfl, hf, type?, htype, htaken⟩ (ih hrest)
      cases argument with
      | none =>
          refine hresolved none (fun row _ v hv => ?_) h
          cases hv
          rfl
      | some i =>
          dsimp only at h
          split at h
          · rename_i a ha
            refine hresolved (some a) (fun row hrow v hv => ?_) h
            obtain ⟨_, v', ⟨⟩, hv', hconforms⟩ := hrow.covers i a ha
            rw [taken?] at hv
            dsimp only at hv
            rw [hv'] at hv
            dsimp only at hv
            split at hv
            · cases hv
            · rename_i hnull
              cases hv
              exact Expr.type?_of_not_isNull hconforms (Bool.eq_false_of_not_eq_true hnull)
          · cases h

theorem calls_of_resolve {input : RowType} {calls : List (String × Option Nat)}
    {resolved : List (AggregateCall × ValueType)}
    (h : resolve .builtins input calls = .ok resolved) :
    List.Forall₂ (Calls input) (resolved.map Prod.fst) (resolved.map Prod.snd) := by
  have hresolves := resolves_of_resolve h
  clear h
  induction hresolves with
  | nil => exact .nil
  | cons hr _ ih =>
      obtain ⟨argument, htype, htaken⟩ := hr.announced
      have hbuiltin := Registry.mem_builtins_of_get hr.function
      have hannounces := AggregateFunction.announces_of_mem_builtins hbuiltin htype
      exact .cons ⟨argument, hannounces, fun row hrow v hv => (htaken row hrow v hv).type⟩ ih

theorem mem_builtins_of_resolve {input : RowType} {calls : List (String × Option Nat)}
    {resolved : List (AggregateCall × ValueType)}
    (h : resolve .builtins input calls = .ok resolved) :
    ∀ r ∈ resolved, r.1.function ∈ AggregateFunction.builtins := by
  have hresolves := resolves_of_resolve h
  clear h
  induction hresolves with
  | nil => exact List.forall_mem_nil _
  | cons hr _ ih => exact List.forall_mem_cons.mpr ⟨Registry.mem_builtins_of_get hr.function, ih⟩

variable {input : RowType} {calls : List AggregateCall} {types : List ValueType}
  {slots : List Slot}

theorem feed_kept (hcalls : List.Forall₂ (Calls input) calls types)
    (hslots : List.Forall₂ Holds slots types) {row : Row} (hrow : row.Fits input) :
    FailsWith QueryError.Circumstantial (feed row calls slots).1 ∧
      List.Forall₂ Holds (feed row calls slots).2 types := by
  induction hcalls generalizing slots with
  | nil =>
      cases hslots
      exact ⟨.ok (), .nil⟩
  | cons hc _ ih =>
      rename_i c type calls types _
      cases hslots with
      | cons hslot hslots =>
          rename_i slot slots
          obtain ⟨argument, hannounces, htaken⟩ := hc
          obtain ⟨hresult, hrest⟩ := ih hslots
          rw [feed]
          split
          · exact ⟨hresult, .cons hslot hrest⟩
          · rename_i v hv
            have hupdated := hannounces.update slot.state v hslot (htaken row hrow v hv)
            generalize c.function.update slot.state v = x at hupdated
            obtain ⟨e | _, state⟩ := x
            · exact ⟨.error hupdated.1.of_error, .cons hupdated.2 hslots⟩
            · exact ⟨hresult, .cons hupdated.2 hrest⟩

theorem describes_results (hcalls : List.Forall₂ (Calls input) calls types)
    (hslots : List.Forall₂ Holds slots types) :
    List.Forall₂ (fun v type => Value.conforms v type = true) (results calls slots) types := by
  induction hcalls generalizing slots with
  | nil => cases hslots; exact .nil
  | cons hc _ ih =>
      obtain ⟨argument, hannounces, -⟩ := hc
      cases hslots with
      | cons hslot hslots =>
          refine .cons ?_ (ih hslots)
          split
          · exact hannounces.finish _ hslot
          · exact hannounces.empty

/-- The types of the leading fields. -/
def keyTypes (g : Grouping) : List ValueType := g.rowType.fields.take g.fields

/-- The types of the results. -/
def resultTypes (g : Grouping) : List ValueType := g.rowType.fields.drop g.fields

/-- The calls of a grouping take values of rows of a type, and its groups are told apart by fields
of these rows. -/
structure Typed (g : Grouping) (input : RowType) : Prop where
  calls : List.Forall₂ (Calls input) g.calls g.resultTypes
  keys : g.keyTypes = input.fields.take g.fields

theorem typed_of_build {fields : Nat} {calls : List (String × Option Nat)} {g : Grouping}
    (h : build .builtins input fields calls = .ok g) : g.Typed input := by
  rw [build] at h
  split at h
  · cases h
  · rename_i hfields
    obtain ⟨resolved, hresolved, h⟩ := Except.bind_eq_ok_iff.mp h
    obtain rfl := Except.ok.inj h
    have hlength : (input.fields.take fields).length = fields :=
      List.length_take_of_le (Nat.not_lt.mp hfields)
    refine ⟨?_, List.take_left' hlength⟩
    rw [resultTypes, RowType.ofFields, List.drop_left' hlength]
    exact calls_of_resolve hresolved

variable {g : Grouping}

theorem Typed.freshSlots (h : g.Typed input) :
    List.Forall₂ Holds g.freshSlots g.resultTypes := by
  rw [Grouping.freshSlots, List.forall₂_map_left_iff]
  exact h.calls.imp fun _ _ ⟨_, hannounces, _⟩ => hannounces.initial

theorem Typed.rowOf_yields (h : g.Typed input) {key : List Value}
    (hkey : List.Forall₂ (fun v type => Value.conforms v type = true) key g.keyTypes)
    (hslots : List.Forall₂ Holds slots g.resultTypes) :
    Yields QueryError.Circumstantial (Row.Fits g.rowType) (g.rowOf key slots) := by
  have hdescribes : g.rowType.Describes (key ++ results g.calls slots) := by
    rw [RowType.Describes, ← List.take_append_drop g.fields g.rowType.fields]
    exact List.rel_append hkey (describes_results h.calls hslots)
  obtain ⟨row, hrow, htype⟩ := hdescribes.ofValues
  rw [rowOf, hrow]
  exact .ok (congrArg RowType.fields htype)

end Grouping

namespace AggregateCursor

variable {g : Grouping} {input : RowType}

/-- The key of a group that is open consists of values of the leading fields, and its slots hold
values of their types. -/
def Progress.Typed (g : Grouping) (p : Progress) : Prop :=
  ∀ key ∈ p.group,
    List.Forall₂ (fun v type => Value.conforms v type = true) key g.keyTypes ∧
      List.Forall₂ Grouping.Holds p.slots g.resultTypes

variable {p : Progress} {row : Row}

theorem emit_typed (hg : g.Typed input) (hp : p.Typed g) :
    Yields QueryError.Circumstantial (fun row => ∀ r ∈ row, r.Fits g.rowType) (emit g p).1 ∧
      (emit g p).2.group = none := by
  rw [emit]
  cases hgroup : p.group with
  | none => exact ⟨.ok fun _ h => absurd h (Option.not_mem_none _), hgroup⟩
  | some key =>
      obtain ⟨hkey, hslots⟩ := hp key hgroup
      refine ⟨(hg.rowOf_yields hkey hslots).map ?_, rfl⟩
      rintro row hrow _ ⟨⟩
      exact hrow

theorem feed_typed (hg : g.Typed input) (hrow : row.Fits input) (hp : p.Typed g)
    (hopen : p.group.isSome) :
    FailsWith QueryError.Circumstantial (feed g row p).1 ∧ (feed g row p).2.Typed g := by
  obtain ⟨key, hgroup⟩ := Option.isSome_iff_exists.mp hopen
  obtain ⟨hresult, hslots⟩ := Grouping.feed_kept hg.calls (hp key hgroup).2 hrow
  exact ⟨hresult, fun key' hkey' => ⟨(hp key' hkey').1, hslots⟩⟩

theorem startGroup_typed (hg : g.Typed input) (hrow : row.Fits input) :
    (startGroup g row p).Typed g := by
  rintro _ ⟨⟩
  refine ⟨?_, hg.freshSlots⟩
  rw [hg.keys]
  exact List.forall₂_take g.fields hrow.describes

/-- A row that opens a group is given to the slots of that group. -/
theorem feed_startGroup_typed (hg : g.Typed input) (hrow : row.Fits input) :
    FailsWith QueryError.Circumstantial (feed g row (startGroup g row p)).1 ∧
      (feed g row (startGroup g row p)).2.Typed g :=
  feed_typed hg hrow (startGroup_typed hg hrow) rfl

/-- A grouping computes rows of its own type from rows of the type it was checked for. -/
theorem folds {T : Terms} (hT : ∀ e : QueryError, e.Circumstantial → T.Error e)
    (hg : g.Typed input) :
    Folds g T (Row.Fits input) (Row.Fits g.rowType) (Progress.Typed g) where
  start := fun _ h => absurd h (Option.not_mem_none _)
  clear _ _ := fun _ h => absurd h (Option.not_mem_none _)
  ended _ hp := hp
  emit p hp := by
    obtain ⟨hresult, hnone⟩ := emit_typed hg hp
    refine ⟨hresult.mono hT fun _ h => h, fun key hkey => ?_⟩
    rw [hnone] at hkey
    exact absurd hkey (Option.not_mem_none key)
  take row p hrow hp := by
    rw [take]
    split
    · have hfed := feed_startGroup_typed (p := p) hg hrow
      generalize feed g row (startGroup g row p) = x at hfed
      obtain ⟨e | _, p⟩ := x
      · exact ⟨hT _ hfed.1.of_error, hfed.2⟩
      · exact ⟨trivial, hfed.2⟩
    · rename_i key hgroup
      split
      · have hfed := feed_typed hg hrow hp (Option.isSome_of_mem hgroup)
        generalize feed g row p = x at hfed
        obtain ⟨e | _, p⟩ := x
        · exact ⟨hT _ hfed.1.of_error, hfed.2⟩
        · exact ⟨trivial, hfed.2⟩
      · have hemitted := emit_typed hg hp
        generalize emit g p = x at hemitted
        obtain ⟨finished, p⟩ := x
        obtain ⟨he | hfinished, hnone⟩ := hemitted
        · refine ⟨hT _ he, fun key hkey => ?_⟩
          dsimp only at hnone
          rw [hnone] at hkey
          exact absurd hkey (Option.not_mem_none key)
        · have hfed := feed_startGroup_typed (p := p) hg hrow
          dsimp only
          generalize feed g row (startGroup g row p) = x at hfed
          obtain ⟨e | _, p⟩ := x
          · exact ⟨hT _ hfed.1.of_error, hfed.2⟩
          · exact ⟨hfinished, hfed.2⟩

end AggregateCursor
end OrderedQuery
