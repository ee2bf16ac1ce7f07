import OrderedQuery.Proofs.Plan.Tiling
import OrderedQuery.Proofs.Plan.TypedGroups

/-!
# What groups are summarized to

A grouping makes one row of each maximal run of neighbouring rows with the same leading values.
The row begins with these values, and each call adds the result of its function for the values
that the rows of the run have for the call: not for the state of a slot, which is what the cursor
keeps, but for a list of values given to the function one by one.
-/

namespace OrderedQuery

namespace Row

/-- The first `n` values are the same in the total order. -/
def SameLeading (n : Nat) (a b : Row) : Prop :=
  List.Forall₂ (fun v w => Value.totalCompare v w = .eq) (a.values.take n) (b.values.take n)

/-- Rows are cut into the longest runs of neighbours with the same leading values. -/
structure MaximalRuns (n : Nat) (rows : List Row) (runs : List (List Row)) : Prop where
  flatten : runs.flatten = rows
  ne_nil : ∀ run ∈ runs, run ≠ []
  same : ∀ run ∈ runs, ∀ a ∈ run, ∀ b ∈ run, SameLeading n a b
  maximal : runs.IsChain fun run next => ∀ a ∈ run, ∀ b ∈ next, ¬SameLeading n a b

end Row

namespace AggregateFunction

/-- The state after values, given one by one. -/
def takeAll (f : AggregateFunction) : List Value → List Value → Except QueryError (List Value)
  | state, [] => .ok state
  | state, v :: values =>
      match f.update state v with
      | (.error e, _) => .error e
      | (.ok (), state) => f.takeAll state values

/-- The result for the values of a group. -/
def resultOf (f : AggregateFunction) (values : List Value) : Except QueryError Value :=
  if values.isEmpty then .ok f.emptyValue else (f.takeAll f.initial values).map f.finish

/-- Results are of the type that is announced for them. -/
def Conforms (f : AggregateFunction) : Prop :=
  ∀ argument type, f.resultType argument = .ok type →
    ∀ values, (∀ v ∈ values, Grouping.Suits argument v) →
      ∀ result, f.resultOf values = .ok result → result.conforms type

variable {f : AggregateFunction} {state values more : List Value}

theorem takeAll_append : f.takeAll state (values ++ more) =
    f.takeAll state values >>= fun taken => f.takeAll taken more := by
  induction values generalizing state with
  | nil => rfl
  | cons v values ih =>
      rw [List.cons_append, takeAll, takeAll]
      split
      · rfl
      · exact ih

theorem Announces.held_of_takeAll {argument : Option ValueType} {type : ValueType}
    (h : f.Announces argument type) (hstate : Held type state)
    (hvalues : ∀ v ∈ values, v.type? = some (argument.getD .bool)) {taken : List Value}
    (htaken : f.takeAll state values = .ok taken) : Held type taken := by
  induction values generalizing state with
  | nil =>
      obtain rfl := Except.ok.inj htaken
      exact hstate
  | cons v values ih =>
      obtain ⟨hv, hvalues⟩ := List.forall_mem_cons.mp hvalues
      have hupdated := (h.update state v hstate hv).2
      rw [takeAll] at htaken
      split at htaken
      · cases htaken
      · rename_i hupdate
        rw [hupdate] at hupdated
        exact ih hupdated hvalues htaken

/-- The results of the functions that are there from the start are of the announced types. -/
theorem conforms_of_mem_builtins (hf : f ∈ builtins) : f.Conforms := by
  intro argument type htype values hvalues result hresult
  have hannounces := announces_of_mem_builtins hf htype
  rw [resultOf] at hresult
  split at hresult
  · obtain rfl := Except.ok.inj hresult
    exact hannounces.empty
  · obtain ⟨taken, htaken, rfl⟩ := Except.map_eq_ok_iff.mp hresult
    apply hannounces.finish
    apply hannounces.held_of_takeAll hannounces.initial _ htaken
    intro v hv
    exact (hvalues v hv).type

end AggregateFunction

namespace AggregateCall

/-- The values that rows have for a call: those of its argument that are not null, or a truth
value for each row if it has no argument. -/
def arguments (c : AggregateCall) (rows : List Row) : List Value :=
  match c.argument with
  | none => rows.map fun _ => .bool true
  | some i => (rows.filterMap (·.value? i)).filter fun v => !v.isNull

/-- None of the values that rows have for a call is refused. -/
def Accepts (c : AggregateCall) (rows : List Row) : Prop :=
  ∃ state, c.function.takeAll c.function.initial (c.arguments rows) = .ok state

variable {c : AggregateCall} {rows more : List Row} {row : Row}

theorem arguments_append : c.arguments (rows ++ more) = c.arguments rows ++ c.arguments more := by
  unfold arguments
  split
  · rw [List.map_append]
  · rw [List.filterMap_append, List.filter_append]

theorem arguments_singleton : c.arguments [row] = (Grouping.taken? c row).toList := by
  rw [arguments, Grouping.taken?]
  cases c.argument with
  | none => rfl
  | some i =>
      dsimp only [List.filterMap]
      cases row.value? i with
      | none => rfl
      | some v => cases hv : v.isNull <;> simp [hv]

theorem mem_arguments {v : Value} (h : v ∈ c.arguments rows) :
    ∃ row ∈ rows, v ∈ Grouping.taken? c row := by
  induction rows with
  | nil =>
      unfold arguments at h
      split at h <;> cases h
  | cons row rows ih =>
      rw [← List.singleton_append, arguments_append, arguments_singleton] at h
      rcases List.mem_append.mp h with hfirst | hrest
      · exact ⟨row, List.mem_cons_self, Option.mem_toList.mp hfirst⟩
      · obtain ⟨row', hmem, hv⟩ := ih hrest
        exact ⟨row', List.mem_cons_of_mem row hmem, hv⟩

theorem Accepts.of_append (h : c.Accepts (rows ++ more)) : c.Accepts rows := by
  obtain ⟨state, hstate⟩ := h
  rw [arguments_append, AggregateFunction.takeAll_append] at hstate
  obtain ⟨taken, htaken, -⟩ := Except.bind_eq_ok_iff.mp hstate
  exact ⟨taken, htaken⟩

end AggregateCall

namespace Grouping

variable {g : Grouping} {calls : List AggregateCall} {slots : List Slot} {c : AggregateCall}
  {slot : Slot} {rows run ins : List Row} {runs : List (List Row)} {a b row out : Row}

/-! ## Groups are the maximal runs -/

theorem sameKey_iff_sameLeading : sameKey (g.key a) (g.key b) ↔ a.SameLeading g.fields b := by
  rw [sameKey, Bool.and_eq_true, decide_eq_true_eq, List.all_eq_true, Row.SameLeading,
    List.forall₂_iff_zip]
  apply and_congr_right
  intro _
  constructor
  · intro h v w hmem
    exact Ordering.isEq_iff_eq_eq.mp (h (v, w) hmem)
  · rintro h ⟨v, w⟩ hmem
    exact Ordering.isEq_iff_eq_eq.mpr (h hmem)

theorem maximalRuns_groups (g : Grouping) (rows : List Row) :
    Row.MaximalRuns g.fields rows (g.groups rows) where
  flatten := List.flatten_splitBy _ rows
  ne_nil run hrun := List.ne_nil_of_mem_splitBy hrun
  same run hrun a ha b hb := sameKey_iff_sameLeading.mp (sameKey_of_mem_groups hrun ha hb)
  maximal := by
    refine (List.isChain_getLast_head_splitBy _ rows).imp_of_mem_imp ?_
    rintro run next hrun hnext ⟨hne, hne', hdiffer⟩ a ha b hb hsame
    -- the ends of the two runs would have one key as well
    have hlast := sameKey_of_mem_groups hrun (List.getLast_mem hne) ha
    have hhead := sameKey_of_mem_groups hnext hb (List.head_mem hne')
    have hends := sameKey_trans hlast (sameKey_trans (sameKey_iff_sameLeading.mpr hsame) hhead)
    exact Bool.eq_false_iff.mp hdiffer hends

/-- There is one way to cut rows into maximal runs. -/
theorem maximalRuns_iff : Row.MaximalRuns g.fields rows runs ↔ runs = g.groups rows := by
  constructor
  · intro h
    have hsame : ∀ run ∈ runs, ∀ a ∈ run, ∀ b ∈ run, sameKey (g.key a) (g.key b) :=
      fun run hrun a ha b hb => sameKey_iff_sameLeading.mpr (h.same run hrun a ha b hb)
    rw [← h.flatten]
    symm
    apply List.splitBy_flatten
    · intro hnil
      exact h.ne_nil [] hnil rfl
    · intro run hrun
      exact (List.pairwise_of_forall_mem_list (hsame run hrun)).isChain
    · refine h.maximal.imp_of_mem_imp ?_
      intro run next hrun hnext hdiffer
      have hne := h.ne_nil run hrun
      have hne' := h.ne_nil next hnext
      refine ⟨hne, hne', Bool.eq_false_iff.mpr fun hends => ?_⟩
      exact hdiffer _ (List.getLast_mem hne) _ (List.head_mem hne')
        (sameKey_iff_sameLeading.mp hends)
  · rintro rfl
    exact maximalRuns_groups g rows

/-! ## What the slots of a group hold -/

/-- A slot has taken the values that rows have for its call. -/
structure Took (rows : List Row) (c : AggregateCall) (slot : Slot) : Prop where
  state : c.function.takeAll c.function.initial (c.arguments rows) = .ok slot.state
  seen : slot.seen = !(c.arguments rows).isEmpty

theorem took_freshSlots (g : Grouping) : List.Forall₂ (Took []) g.calls g.freshSlots := by
  rw [freshSlots, List.forall₂_map_right_iff, List.forall₂_same]
  intro c _
  have hnone : c.arguments [] = [] := by
    unfold AggregateCall.arguments
    split <;> rfl
  constructor <;> rw [hnone] <;> rfl

theorem Took.skip (h : Took rows c slot) (hrow : taken? c row = none) :
    Took (rows ++ [row]) c slot := by
  have hsame : c.arguments (rows ++ [row]) = c.arguments rows := by
    rw [AggregateCall.arguments_append, AggregateCall.arguments_singleton, hrow]
    exact List.append_nil _
  constructor <;> rw [hsame]
  · exact h.state
  · exact h.seen

theorem Took.update (h : Took rows c slot) {v : Value} (hrow : taken? c row = some v)
    {state : List Value} (hupdate : c.function.update slot.state v = (.ok (), state)) :
    Took (rows ++ [row]) c ⟨state, true⟩ := by
  have hmore : c.arguments (rows ++ [row]) = c.arguments rows ++ [v] := by
    rw [AggregateCall.arguments_append, AggregateCall.arguments_singleton, hrow]
    rfl
  constructor
  · rw [hmore, AggregateFunction.takeAll_append, h.state]
    show c.function.takeAll slot.state [v] = .ok state
    rw [AggregateFunction.takeAll, hupdate]
    rfl
  · rw [hmore]
    cases c.arguments rows <;> rfl

/-- A value that is accepted updates the state of a slot. -/
theorem Took.exists_update (h : Took rows c slot) {v : Value} (hrow : taken? c row = some v)
    (haccepts : c.Accepts (rows ++ [row])) :
    ∃ state, c.function.update slot.state v = (.ok (), state) := by
  obtain ⟨state, hstate⟩ := haccepts
  rw [AggregateCall.arguments_append, AggregateCall.arguments_singleton, hrow,
    AggregateFunction.takeAll_append, h.state] at hstate
  change c.function.takeAll slot.state [v] = .ok state at hstate
  rw [AggregateFunction.takeAll] at hstate
  split at hstate
  · cases hstate
  · exact ⟨_, ‹_›⟩

/-- A row whose values are accepted is taken by all slots of a group. -/
theorem feed_took (h : List.Forall₂ (Took rows) calls slots)
    (haccepts : ∀ c ∈ calls, c.Accepts (rows ++ [row])) :
    ∃ slots', feed row calls slots = (.ok (), slots') ∧
      List.Forall₂ (Took (rows ++ [row])) calls slots' := by
  induction h with
  | nil => exact ⟨[], rfl, .nil⟩
  | @cons c slot calls slots hslot _ ih =>
      obtain ⟨hfirst, hrest⟩ := List.forall_mem_cons.mp haccepts
      obtain ⟨slots', hfeed, hslots'⟩ := ih hrest
      rw [feed]
      cases hrow : taken? c row with
      | none =>
          rw [hfeed]
          exact ⟨slot :: slots', rfl, .cons (hslot.skip hrow) hslots'⟩
      | some v =>
          obtain ⟨state, hupdate⟩ := hslot.exists_update hrow hfirst
          dsimp only
          rw [hupdate, hfeed]
          exact ⟨⟨state, true⟩ :: slots', rfl, .cons (hslot.update hrow hupdate) hslots'⟩

/-- Rows whose values are accepted are taken by all slots of a group. -/
theorem fold_took (haccepts : ∀ c ∈ g.calls, c.Accepts rows) :
    ∃ slots, g.fold g.freshSlots rows = .ok slots ∧ List.Forall₂ (Took rows) g.calls slots := by
  induction rows using List.reverseRecOn with
  | nil => exact ⟨g.freshSlots, rfl, took_freshSlots g⟩
  | append_singleton rows row ih =>
      obtain ⟨slots, hfold, hslots⟩ := ih fun c hc => (haccepts c hc).of_append
      obtain ⟨slots', hfeed, hslots'⟩ := feed_took hslots haccepts
      refine ⟨slots', ?_, hslots'⟩
      rw [fold_append, hfold]
      show g.fold slots [row] = .ok slots'
      rw [fold, hfeed]
      rfl

/-! ## The rows of groups -/

/-- The row of a run: the leading values of its first row, and the result of each call for the
values that the rows of the run have for it. -/
structure Summarizes (g : Grouping) (run : List Row) (out : Row) : Prop where
  type : out.type = g.rowType
  values : ∃ results, out.values = g.keyOf run ++ results ∧
    List.Forall₂ (fun c v => c.function.resultOf (c.arguments run) = .ok v) g.calls results

theorem Took.resultOf (h : Took rows c slot) :
    c.function.resultOf (c.arguments rows) =
      .ok (if slot.seen then c.function.finish slot.state else c.function.emptyValue) := by
  rw [AggregateFunction.resultOf, h.seen, h.state]
  cases (c.arguments rows).isEmpty <;> rfl

theorem forall₂_results (h : List.Forall₂ (Took rows) calls slots) :
    List.Forall₂ (fun c v => c.function.resultOf (c.arguments rows) = .ok v) calls
      (results calls slots) := by
  induction h with
  | nil => exact .nil
  | cons hslot _ ih => exact .cons hslot.resultOf ih

/-- A row that is made of slots that have taken a run is the row of the run. -/
theorem summarizes_of_rowOf (h : List.Forall₂ (Took run) g.calls slots)
    (hrow : g.rowOf (g.keyOf run) slots = .ok out) : g.Summarizes run out where
  type := Row.type_of_ofValues hrow
  values := ⟨_, Row.values_of_ofValues hrow, forall₂_results h⟩

variable {registry : Registry} {input : RowType} {fields : Nat}
  {requested : List (String × Option Nat)}

/-- What the calls of a grouping were looked up as, and the types of its rows. -/
theorem exists_resolved_of_build (h : build registry input fields requested = .ok g) :
    ∃ resolved, g.calls = resolved.map Prod.fst ∧
      g.rowType.fields = input.fields.take fields ++ resolved.map Prod.snd ∧
      List.Forall₂ (fun call r => Resolves registry input call r.1 r.2) requested resolved := by
  rw [build] at h
  split at h
  · cases h
  · obtain ⟨resolved, hresolved, h⟩ := Except.bind_eq_ok_iff.mp h
    obtain rfl := Except.ok.inj h
    exact ⟨resolved, rfl, rfl, resolves_of_resolve hresolved⟩

theorem Resolves.conforms {call : String × Option Nat} {type : ValueType}
    (h : Resolves registry input call c type) (hconforms : c.function.Conforms)
    (hrows : ∀ row ∈ run, row.Fits input) {result : Value}
    (hresult : c.function.resultOf (c.arguments run) = .ok result) : result.conforms type := by
  obtain ⟨argument, htype, htaken⟩ := h.announced
  refine hconforms argument type htype _ ?_ result hresult
  intro v hv
  obtain ⟨row, hrow, hv⟩ := AggregateCall.mem_arguments hv
  exact htaken row (hrows row hrow) v hv

/-- The results for a run are of the types of the calls. -/
theorem forall₂_conforms {resolved : List (AggregateCall × ValueType)}
    (h : List.Forall₂ (fun call r => Resolves registry input call r.1 r.2) requested resolved)
    (hconforms : ∀ r ∈ resolved, r.1.function.Conforms) (hrows : ∀ row ∈ run, row.Fits input)
    {values : List Value}
    (hvalues : List.Forall₂ (fun c v => c.function.resultOf (c.arguments run) = .ok v)
      (resolved.map Prod.fst) values) :
    List.Forall₂ (fun v type => Value.conforms v type = true) values
      (resolved.map Prod.snd) := by
  induction h generalizing values with
  | nil =>
      obtain rfl := List.forall₂_nil_left_iff.mp hvalues
      exact .nil
  | cons hr _ ih =>
      obtain ⟨v, more, hv, hmore, rfl⟩ := List.forall₂_cons_left_iff.mp hvalues
      obtain ⟨hfirst, hrest⟩ := List.forall_mem_cons.mp hconforms
      exact .cons (hr.conforms hfirst hrows hv) (ih hrest hmore)

/-- A run whose values are all accepted has a row. -/
theorem exists_summary (h : build registry input fields requested = .ok g)
    (hconforms : ∀ c ∈ g.calls, c.function.Conforms) (hne : run ≠ [])
    (hrows : ∀ row ∈ run, row.Fits input) (haccepts : ∀ c ∈ g.calls, c.Accepts run) :
    ∃ out, g.summary run = .ok out ∧ g.Summarizes run out := by
  obtain ⟨slots, hfold, hslots⟩ := fold_took haccepts
  obtain ⟨resolved, hcalls, htypes, hresolved⟩ := exists_resolved_of_build h
  obtain ⟨rfl, -⟩ := build_eq_ok h
  have hkey : List.Forall₂ (fun v type => Value.conforms v type = true) (g.keyOf run)
      (input.fields.take g.fields) := by
    obtain ⟨first, rest, rfl⟩ := List.exists_cons_of_ne_nil hne
    exact List.forall₂_take g.fields (hrows first List.mem_cons_self).describes
  have hresults : List.Forall₂ (fun v type => Value.conforms v type = true)
      (results g.calls slots) (resolved.map Prod.snd) := by
    apply forall₂_conforms hresolved _ hrows
    · rw [← hcalls]
      exact forall₂_results hslots
    · intro r hr
      apply hconforms
      rw [hcalls]
      exact List.mem_map_of_mem hr
  have hdescribes : g.rowType.Describes (g.keyOf run ++ results g.calls slots) := by
    rw [RowType.Describes, htypes]
    exact List.rel_append hkey hresults
  obtain ⟨out, hout, -⟩ := hdescribes.ofValues
  refine ⟨out, ?_, summarizes_of_rowOf hslots hout⟩
  rw [summary, hfold]
  exact hout

/-- Runs whose values are all accepted have rows. -/
theorem exists_summaries (h : build registry input fields requested = .ok g)
    (hconforms : ∀ c ∈ g.calls, c.function.Conforms)
    (hruns : ∀ run ∈ runs, run ≠ [] ∧ (∀ row ∈ run, row.Fits input) ∧
      ∀ c ∈ g.calls, c.Accepts run) :
    ∃ outs, List.Forall₂ (fun run out => g.summary run = .ok out ∧ g.Summarizes run out)
      runs outs := by
  induction runs with
  | nil => exact ⟨[], .nil⟩
  | cons run runs ih =>
      obtain ⟨⟨hne, hrows, haccepts⟩, hrest⟩ := List.forall_mem_cons.mp hruns
      obtain ⟨out, hout⟩ := exists_summary h hconforms hne hrows haccepts
      obtain ⟨outs, houts⟩ := ih hrest
      exact ⟨out :: outs, .cons hout houts⟩

end Grouping

namespace Plan

variable {registry : Registry} {input : Plan}

/-- Executing a plan that makes groups returns one row for each maximal run of rows with the same
leading values, in the order of the input: the leading values of the run, and the result of each
call for the values that the rows of the run have for it.  All that is asked of the functions is
that their results are of the types they announce, and that they refuse none of the values. -/
theorem aggregate_summarizes_runs (hinput : Built registry input) {fields : Nat}
    {calls : List (String × Option Nat)} {g : Grouping}
    (hp : ofAggregate registry input fields calls = .ok (aggregate input g))
    (hconforms : ∀ c ∈ g.calls, c.function.Conforms) {ctx : Context} {store : Store} {w : World}
    (hw : Calm ctx store w) {env : Env} {ins : List Row}
    (hins : (input.execute ctx env w).1 = .ok ins) :
    g.fields = fields ∧
      List.Forall₂ (fun call c => c.name = call.1 ∧ c.argument = call.2 ∧
        registry.get call.1 = .ok c.function) calls g.calls ∧
      ∃ runs, (∀ runs', Row.MaximalRuns fields ins runs' ↔ runs' = runs) ∧
        ((∀ run ∈ runs, ∀ c ∈ g.calls, c.Accepts run) →
          ∃ outs, ((aggregate input g).execute ctx env w).1 = .ok outs ∧
            List.Forall₂ g.Summarizes runs outs ∧ (ins = [] → outs = [])) := by
  obtain ⟨g', hg, hplan⟩ := Except.bind_eq_ok_iff.mp hp
  obtain ⟨-, rfl⟩ := Plan.aggregate.inj (Except.ok.inj hplan)
  obtain ⟨rfl, -⟩ := Grouping.build_eq_ok hg
  have hbuilt : Built registry (aggregate input g') := .aggregate hinput hp
  have hmeans := (hinput.execute_eq_ok_iff hw).mp hins
  refine ⟨rfl, ?_, g'.groups ins, fun runs' => Grouping.maximalRuns_iff, ?_⟩
  · obtain ⟨resolved, hcalls, -, hresolved⟩ := Grouping.exists_resolved_of_build hg
    rw [hcalls, List.forall₂_map_right_iff]
    exact hresolved.imp fun call r h => ⟨h.name, h.argument, h.function⟩
  · intro haccepts
    have hfits : ∀ row ∈ ins, row.Fits input.rowType :=
      hinput.fields_of_mem (listing_eq_ok_iff_denotes.mpr hmeans)
    have hruns := Grouping.maximalRuns_groups g' ins
    obtain ⟨outs, houts⟩ := Grouping.exists_summaries hg hconforms fun run hrun =>
      ⟨hruns.ne_nil run hrun, fun row hrow => hfits row (Grouping.mem_of_mem_groups hrun hrow),
        haccepts run hrun⟩
    refine ⟨outs, ?_, houts.imp fun run out h => h.2, ?_⟩
    · rw [hbuilt.execute_eq_ok_iff hw]
      exact .aggregate hmeans (houts.imp fun run out h => h.1)
    · rintro rfl
      exact List.forall₂_nil_left_iff.mp houts

/-- Neighbouring rows with a null key make a group, and a group whose values are all null has no
sum. -/
theorem aggregate_summarizes_runs_sum :
    let pair : RowType := .ofFields [.int, .int]
    let first : Row := ⟨pair, [.null, .int 1], rfl⟩
    let second : Row := ⟨pair, [.null, .null], rfl⟩
    let third : Row := ⟨pair, [.int 2, .null], rfl⟩
    let input : Plan := .values pair [first, second, third, first]
    let g : Grouping := ⟨1, [⟨"count", none, .count⟩, ⟨"sum", some 1, .sum⟩],
      .ofFields [.int, .int, .int]⟩
    let made := (World.ofEngine .empty).newContext {}
    ∃ outs, ((aggregate input g).execute made.1 .root made.2).1 = .ok outs ∧
      List.Forall₂ g.Summarizes [[first, second], [third], [first]] outs := by
  intro pair first second third input g made
  have hcount : Registry.builtins.get "count" = .ok .count :=
    Registry.get_of_mem_builtins List.mem_cons_self
  have hsum : Registry.builtins.get "sum" = .ok .sum :=
    Registry.get_of_mem_builtins (List.mem_cons_of_mem _ List.mem_cons_self)
  have hrows : ofRows pair [first, second, third, first] = .ok input := rfl
  have hinput : Built .builtins input := .values hrows
  have hp : ofAggregate .builtins input 1 [("count", none), ("sum", some 1)] =
      .ok (aggregate input g) := by
    unfold ofAggregate Grouping.build Grouping.resolve Grouping.resolve
    rw [hcount, hsum]
    rfl
  have hconforms : ∀ c ∈ g.calls, c.function.Conforms := by
    have hbuiltin : ∀ c ∈ g.calls, c.function ∈ AggregateFunction.builtins := by
      simp [g, AggregateFunction.builtins]
    exact fun c hc => AggregateFunction.conforms_of_mem_builtins (hbuiltin c hc)
  have hw : Calm made.1 .empty made.2 := ⟨rfl, rfl, rfl⟩
  have hins : (input.execute made.1 .root made.2).1 = .ok [first, second, third, first] :=
    (hinput.execute_eq_ok_iff hw).mpr .values
  obtain ⟨-, -, runs, hruns, hsummarizes⟩ :=
    aggregate_summarizes_runs hinput hp hconforms hw hins
  have hgroups : g.groups [first, second, third, first] = [[first, second], [third], [first]] := by
    rfl
  obtain rfl : [[first, second], [third], [first]] = runs := by
    rw [← hruns, ← hgroups]
    exact Grouping.maximalRuns_groups g _
  have haccepts : ∀ run ∈ [[first, second], [third], [first]], ∀ c ∈ g.calls, c.Accepts run := by
    intro run hrun c hc
    simp only [g, List.mem_cons, List.not_mem_nil, or_false] at hrun hc
    rcases hrun with rfl | rfl | rfl <;> rcases hc with rfl | rfl <;> exact ⟨_, rfl⟩
  obtain ⟨outs, houts, hall, -⟩ := hsummarizes haccepts
  exact ⟨outs, houts, hall⟩

end Plan
end OrderedQuery
