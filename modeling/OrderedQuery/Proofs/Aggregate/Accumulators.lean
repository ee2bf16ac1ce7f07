import Mathlib.Data.List.Induction
import OrderedQuery.Aggregate.Function
import OrderedQuery.Proofs.Value.Basic

/-!
# Accumulators

Values are offered to an aggregate function one after the other, and after a value that is refused
the next one is offered all the same.  The functions that are there from the start forget a refused
value altogether, so that their results are those of the accepted values alone: their number, their
exact sum, or the first of the best of them.
-/

namespace OrderedQuery

theorem Except.not_error_of_ok {ε α : Type} (a : α) : ¬∃ e : ε, Except.ok a = .error e := by
  rintro ⟨e, h⟩
  cases h

namespace AggregateFunction

/-- What has become of values that were offered to a function: those that it accepted, in order, and
the state that it is in. -/
structure Intake where
  taken : List Value
  state : List Value

/-- Offers one more value. -/
def offer (f : AggregateFunction) (s : Intake) (v : Value) : Intake :=
  match f.update s.state v with
  | (.ok (), next) => ⟨s.taken ++ [v], next⟩
  | (.error _, next) => ⟨s.taken, next⟩

/-- Offers values one after the other to a function in its first state. -/
def offerAll (f : AggregateFunction) (values : List Value) : Intake :=
  values.foldl f.offer ⟨[], f.initial⟩

/-- The function does not accept a value as the next one. -/
def Refuses (f : AggregateFunction) (s : Intake) (v : Value) : Prop :=
  ∃ e, (f.update s.state v).1 = .error e

/-- The state changes as a step says that may fail, and not at all if it does. -/
def StepsBy (f : AggregateFunction)
    (step : List Value → Value → Except QueryError (List Value)) : Prop :=
  ∀ state v, f.update state v = keepOnError state (step state v)

variable {f : AggregateFunction} {step : List Value → Value → Except QueryError (List Value)}
  {s : Intake} {v b : Value} {values taken : List Value} {type : ValueType} {better o : Ordering}
  {name : String}

theorem offerAll_concat (f : AggregateFunction) (values : List Value) (v : Value) :
    f.offerAll (values ++ [v]) = f.offer (f.offerAll values) v := by
  rw [offerAll, List.foldl_append]
  rfl

/-- What holds at first and is preserved by each offer holds after all of them. -/
theorem offerAll_induction {P : List Value → Intake → Prop} (hstart : P [] ⟨[], f.initial⟩)
    (hoffer : ∀ values v, P values (f.offerAll values) →
      P (values ++ [v]) (f.offer (f.offerAll values) v)) (values : List Value) :
    P values (f.offerAll values) := by
  induction values using List.reverseRecOn with
  | nil => exact hstart
  | append_singleton values v ih =>
      rw [offerAll_concat]
      exact hoffer values v ih

theorem StepsBy.offer_cases (h : f.StepsBy step) (s : Intake) (v : Value) :
    (∃ next, step s.state v = .ok next ∧ ¬f.Refuses s v ∧ f.offer s v = ⟨s.taken ++ [v], next⟩) ∨
      (∃ e, step s.state v = .error e) ∧ f.Refuses s v ∧ f.offer s v = s := by
  rw [Refuses, offer, h s.state v]
  cases hstep : step s.state v with
  | ok next => exact .inl ⟨next, rfl, Except.not_error_of_ok (), rfl⟩
  | error e => exact .inr ⟨⟨e, rfl⟩, ⟨e, rfl⟩, rfl⟩

theorem StepsBy.refuses_iff (h : f.StepsBy step) :
    f.Refuses s v ↔ ∃ e, step s.state v = .error e := by
  rcases h.offer_cases s v with ⟨next, hnext, hnot, -⟩ | ⟨hfault, hrefuses, -⟩
  · rw [hnext]
    exact iff_of_false hnot (Except.not_error_of_ok next)
  · exact iff_of_true hrefuses hfault

/-- Values that are refused do not matter to those that come after them. -/
theorem StepsBy.offerAll_taken (h : f.StepsBy step) (values : List Value) :
    f.offerAll (f.offerAll values).taken = f.offerAll values := by
  apply offerAll_induction (P := fun _ s => f.offerAll s.taken = s) rfl
  intro values v ih
  rcases h.offer_cases (f.offerAll values) v with ⟨next, -, -, heq⟩ | ⟨-, -, heq⟩
  · rw [heq]
    dsimp only
    rw [offerAll_concat, ih, heq]
  · rw [heq, ih]

theorem StepsBy.taken_sublist (h : f.StepsBy step) (values : List Value) :
    (f.offerAll values).taken.Sublist values := by
  apply offerAll_induction (P := fun values s => s.taken.Sublist values) (List.Sublist.refl [])
  intro values v ih
  rcases h.offer_cases (f.offerAll values) v with ⟨next, -, -, heq⟩ | ⟨-, -, heq⟩
  · rw [heq]
    exact ih.append (List.Sublist.refl [v])
  · rw [heq]
    exact ih.trans (List.sublist_append_left values [v])

theorem count_stepsBy :
    count.StepsBy fun state _ => intState (.within "count") (heldInt 0 state + 1) := fun _ _ => rfl

theorem sum_stepsBy : sum.StepsBy sumStep := fun _ _ => rfl

theorem best_stepsBy (name : String) (better : Ordering) :
    (best name better).StepsBy (bestStep better) := fun _ _ => rfl

theorem exists_stepsBy (hf : f ∈ builtins) : ∃ step, f.StepsBy step := by
  simp only [builtins, List.mem_cons, List.not_mem_nil, or_false] at hf
  rcases hf with rfl | rfl | rfl | rfl
  · exact ⟨_, count_stepsBy⟩
  · exact ⟨_, sum_stepsBy⟩
  · exact ⟨_, best_stepsBy "min" .lt⟩
  · exact ⟨_, best_stepsBy "max" .gt⟩

/-! ## States that hold an integer -/

/-- A number is too small or too large for 64 bits. -/
def Overflows (n : Int) : Prop :=
  n < Int64.minValue.toInt ∨ Int64.maxValue.toInt < n

theorem not_overflows_toInt (i : Int64) : ¬Overflows i.toInt := by
  rintro (hlow | hhigh)
  · exact absurd i.minValue_le_toInt (by omega)
  · exact absurd i.toInt_le (by omega)

theorem intState_eq_ok {fault : OverflowFault} {n : Int} {next : List Value}
    (h : intState fault n = .ok next) : ∃ i : Int64, next = [.int i] ∧ i.toInt = n := by
  unfold intState at h
  split at h
  · rename_i i hi
    exact ⟨i, (Except.ok.inj h).symm, Value.int64?_eq_some_iff.mp hi⟩
  · cases h

theorem intState_eq_error_iff {fault : OverflowFault} {n : Int} :
    (∃ e, intState fault n = .error e) ↔ Overflows n := by
  rw [Overflows, ← Value.int64?_eq_none_iff, intState]
  cases Value.int64? n with
  | none => exact iff_of_true ⟨_, rfl⟩ rfl
  | some i => exact iff_of_false (Except.not_error_of_ok _) nofun

/-! ## Numbers of values -/

/-- An accumulator holds the number of the values that were offered, as long as it fits. -/
structure Counts (values : List Value) (s : Intake) : Prop where
  taken : s.taken = values.take (2 ^ 63 - 1)
  held : ∃ i : Int64, s.state = [.int i] ∧ i.toInt = s.taken.length

theorem counts_offer (h : Counts values s) (v : Value) :
    Counts (values ++ [v]) (count.offer s v) := by
  obtain ⟨i, hstate, hi⟩ := h.held
  have htaken := h.taken
  have hheld : heldInt 0 s.state = s.taken.length := by rw [hstate]; exact hi
  have hlength : s.taken.length = Min.min (2 ^ 63 - 1) values.length := by
    rw [htaken, List.length_take]
  have hmax : Int64.maxValue.toInt = 2 ^ 63 - 1 := rfl
  rcases count_stepsBy.offer_cases s v with ⟨next, hnext, -, heq⟩ | ⟨hfault, -, heq⟩
  · obtain ⟨j, rfl, hj⟩ := intState_eq_ok hnext
    have hfits := j.toInt_lt
    have hall : s.taken = values := by
      rw [htaken, List.take_of_length_le]
      omega
    rw [heq]
    refine ⟨?_, j, rfl, ?_⟩
    · dsimp only
      rw [List.take_of_length_le, hall]
      rw [List.length_append, List.length_singleton, ← hall]
      omega
    · rw [hj, hheld, List.length_append]
      rfl
  · have hfull : Overflows (heldInt 0 s.state + 1) := intState_eq_error_iff.mp hfault
    have hmin : Int64.minValue.toInt = -2 ^ 63 := rfl
    rw [Overflows] at hfull
    rw [heq]
    refine ⟨?_, i, hstate, hi⟩
    rw [htaken, List.take_append_of_le_length]
    omega

theorem counts_offerAll (values : List Value) : Counts values (count.offerAll values) :=
  offerAll_induction (P := Counts) ⟨rfl, 0, rfl, rfl⟩ (fun _ v h => counts_offer h v) values

/-! ## Sums -/

/-- The exact sum of integers. -/
def total (values : List Value) : Int :=
  (values.map fun v => (v.asInt?.map Int64.toInt).getD 0).sum

theorem total_concat (taken : List Value) (n : Int64) :
    total (taken ++ [.int n]) = total taken + n.toInt := by
  rw [total, List.map_append, List.sum_append]
  simp [total, Value.asInt?]

/-- An accumulator holds the exact sum of the integers that it accepted, if there are any. -/
structure Sums (s : Intake) : Prop where
  empty : s.taken = [] → s.state = []
  held : s.taken ≠ [] → ∃ i : Int64, s.state = [.int i] ∧ i.toInt = total s.taken

/-- The next integer is added exactly, or their sum overflows. -/
theorem Sums.sumStep_cases (h : Sums s) (n : Int64) :
    (∃ i : Int64, sumStep s.state (.int n) = .ok [.int i] ∧ i.toInt = total s.taken + n.toInt) ∨
      (∃ e, sumStep s.state (.int n) = .error e) ∧ Overflows (total s.taken + n.toInt) := by
  by_cases hempty : s.taken = []
  · refine .inl ⟨n, by rw [h.empty hempty, sumStep], ?_⟩
    rw [hempty, total, List.map_nil, List.sum_nil, Int.zero_add]
  · obtain ⟨i, hstate, hi⟩ := h.held hempty
    rw [hstate, sumStep, ← hi]
    cases hnext : intState (.sum i.toInt n.toInt) (i.toInt + n.toInt) with
    | ok next =>
        obtain ⟨j, rfl, hj⟩ := intState_eq_ok hnext
        exact .inl ⟨j, rfl, hj⟩
    | error e => exact .inr ⟨⟨e, rfl⟩, intState_eq_error_iff.mp ⟨e, hnext⟩⟩

theorem Sums.refuses_iff (h : Sums s) (n : Int64) :
    sum.Refuses s (.int n) ↔ Overflows (total s.taken + n.toInt) := by
  rw [sum_stepsBy.refuses_iff]
  rcases h.sumStep_cases n with ⟨i, hstep, hi⟩ | ⟨hfault, hover⟩
  · rw [hstep, ← hi]
    exact iff_of_false (Except.not_error_of_ok _) (not_overflows_toInt i)
  · exact iff_of_true hfault hover

theorem Sums.offer_int (h : Sums s) (n : Int64) : Sums (sum.offer s (.int n)) := by
  rcases sum_stepsBy.offer_cases s (.int n) with ⟨next, hnext, -, heq⟩ | ⟨-, -, heq⟩
  · rcases h.sumStep_cases n with ⟨i, hstep, hi⟩ | ⟨⟨e, hfault⟩, -⟩
    · rw [hstep] at hnext
      obtain rfl := Except.ok.inj hnext
      rw [heq]
      refine ⟨fun hempty => absurd hempty (by simp), fun _ => ⟨i, rfl, ?_⟩⟩
      rw [hi, total_concat]
    · rw [hfault] at hnext
      cases hnext
  · rw [heq]
    exact h

theorem sums_offerAll (h : ∀ v ∈ values, v.type? = some .int) : Sums (sum.offerAll values) := by
  revert h
  apply offerAll_induction (P := fun values s => (∀ v ∈ values, v.type? = some .int) → Sums s)
  · exact fun _ => ⟨fun _ => rfl, fun hne => absurd rfl hne⟩
  · intro values v ih h
    obtain ⟨hvalues, hv⟩ := List.forall_mem_append.mp h
    obtain ⟨n, rfl⟩ := Value.eq_int_of_type? (hv v List.mem_cons_self)
    exact (ih hvalues).offer_int n

/-! ## Best values -/

/-- A value is better than all values in front of it, and none behind it is better. -/
def FirstBest (better : Ordering) (values : List Value) (b : Value) : Prop :=
  ∃ front back, values = front ++ b :: back ∧ (∀ a ∈ front, b.compare a = some better) ∧
    ∀ a ∈ back, ∃ o, a.compare b = some o ∧ o ≠ better

/-- An accumulator holds the first of the best values that it accepted, if there are any. -/
structure KeepsBest (better : Ordering) (s : Intake) : Prop where
  empty : s.taken = [] → s.state = []
  held : s.taken ≠ [] → ∃ b, s.state = [b] ∧ FirstBest better s.taken b

theorem FirstBest.mem (h : FirstBest better taken b) : b ∈ taken := by
  obtain ⟨front, back, rfl, -⟩ := h
  exact List.mem_append_right front List.mem_cons_self

theorem FirstBest.concat (hbetter : better ≠ .eq) (h : FirstBest better taken b)
    (htaken : ∀ a ∈ taken, a.type? = some type) (hv : v.type? = some type)
    (hcompare : v.compare b = some o) :
    FirstBest better (taken ++ [v]) (if o = better then v else b) := by
  obtain ⟨front, back, rfl, hfront, hback⟩ := h
  obtain ⟨htypes, hrest⟩ := List.forall_mem_append.mp htaken
  obtain ⟨hb, htypes'⟩ := List.forall_mem_cons.mp hrest
  by_cases ho : o = better
  · rw [if_pos ho]
    subst ho
    refine ⟨front ++ b :: back, [], rfl, ?_, nofun⟩
    intro a ha
    rcases List.mem_append.mp ha with ha | ha
    · -- `b` is better than `a`, so `a` is not better than `b`.
      have hab : a.compare b = some o.swap := by
        rw [Value.compare_swap b a, hfront a ha, Option.map_some]
      have hswap : o.swap ≠ o := by cases o <;> first | exact absurd rfl hbetter | exact nofun
      exact Value.compare_better hv hb (htypes a ha) hbetter hcompare hab hswap
    · rcases List.mem_cons.mp ha with rfl | ha
      · exact hcompare
      · obtain ⟨p, hab, hp⟩ := hback a ha
        exact Value.compare_better hv hb (htypes' a ha) hbetter hcompare hab hp
  · rw [if_neg ho]
    refine ⟨front, back ++ [v], by rw [List.append_assoc, List.cons_append], hfront, ?_⟩
    intro a ha
    rcases List.mem_append.mp ha with ha | ha
    · exact hback a ha
    · obtain rfl := List.mem_singleton.mp ha
      exact ⟨o, hcompare, ho⟩

/-- Values of one type are refused only once there is another one, and only because of a NaN. -/
theorem KeepsBest.refuses_iff (h : KeepsBest better s) (htaken : ∀ a ∈ s.taken, a.type? = some type)
    (hv : v.type? = some type) :
    (best name better).Refuses s v ↔
      s.taken ≠ [] ∧ (v.IsNaN ∨ ((best name better).finish s.state).IsNaN) := by
  rw [(best_stepsBy name better).refuses_iff]
  by_cases hempty : s.taken = []
  · rw [h.empty hempty, bestStep]
    · exact iff_of_false (Except.not_error_of_ok _) fun hboth => hboth.1 hempty
    · exact nofun
  · obtain ⟨b, hstate, hfirst⟩ := h.held hempty
    have hb := htaken b hfirst.mem
    have hfinish : (best name better).finish [b] = b := rfl
    rw [hstate, hfinish, ← Value.compare_eq_none_iff hv hb, and_iff_right hempty, bestStep]
    cases v.compare b with
    | none => exact iff_of_true ⟨_, rfl⟩ rfl
    | some o => exact iff_of_false (Except.not_error_of_ok _) nofun

theorem KeepsBest.offer_typed (hbetter : better ≠ .eq) (h : KeepsBest better s)
    (htaken : ∀ a ∈ s.taken, a.type? = some type) (hv : v.type? = some type) :
    KeepsBest better ((best name better).offer s v) := by
  rcases (best_stepsBy name better).offer_cases s v with ⟨next, hnext, -, heq⟩ | ⟨-, -, heq⟩
  · rw [heq]
    refine ⟨fun hempty => absurd hempty (by simp), fun _ => ?_⟩
    by_cases hempty : s.taken = []
    · rw [h.empty hempty, bestStep] at hnext
      · obtain rfl := Except.ok.inj hnext
        exact ⟨v, rfl, [], [], by rw [hempty, List.nil_append], nofun, nofun⟩
      · exact nofun
    · obtain ⟨b, hstate, hfirst⟩ := h.held hempty
      rw [hstate, bestStep] at hnext
      cases hcompare : v.compare b with
      | none =>
          rw [hcompare] at hnext
          cases hnext
      | some o =>
          rw [hcompare] at hnext
          refine ⟨_, ?_, hfirst.concat hbetter htaken hv hcompare⟩
          rw [← Except.ok.inj hnext]
          split <;> rfl
  · rw [heq]
    exact h

theorem keepsBest_offerAll (name : String) (hbetter : better ≠ .eq)
    (h : ∀ v ∈ values, v.type? = some type) :
    KeepsBest better ((best name better).offerAll values) := by
  revert h
  apply offerAll_induction
    (P := fun values s => (∀ v ∈ values, v.type? = some type) → KeepsBest better s)
  · exact fun _ => ⟨fun _ => rfl, fun hne => absurd rfl hne⟩
  · intro values v ih h
    obtain ⟨hvalues, hv⟩ := List.forall_mem_append.mp h
    have htaken := (best_stepsBy name better).taken_sublist values
    exact (ih hvalues).offer_typed hbetter (fun a ha => hvalues a (htaken.mem ha))
      (hv v List.mem_cons_self)

theorem best_offerAll (hbetter : better ≠ .eq) (h : ∀ v ∈ values, v.type? = some type)
    (hs : (best name better).offerAll values = s) :
    (s.taken ≠ [] → FirstBest better s.taken ((best name better).finish s.state)) ∧
      ∀ v, v.type? = some type → ((best name better).Refuses s v ↔
        s.taken ≠ [] ∧ (v.IsNaN ∨ ((best name better).finish s.state).IsNaN)) := by
  subst hs
  have hkeeps := keepsBest_offerAll name hbetter h
  have htaken := (best_stepsBy name better).taken_sublist values
  refine ⟨fun hne => ?_, fun v hv => hkeeps.refuses_iff (fun a ha => h a (htaken.mem ha)) hv⟩
  obtain ⟨b, hstate, hfirst⟩ := hkeeps.held hne
  rw [hstate]
  exact hfirst

/-- A value that a function refuses leaves its state alone, which therefore is that of a function
offered the accepted values only.  Counting accepts every value up to the greatest number of 64
bits, which no list in memory exceeds, and a sum of integers refuses those with which it would leave
the 64 bits.  Of values of one type the first of the best is kept, and another one is refused only
because of a NaN. -/
theorem builtins_keep_accepted (values : List Value) :
    (∀ f ∈ builtins, f.offerAll (f.offerAll values).taken = f.offerAll values ∧
        ∀ s v, f.Refuses s v → (f.update s.state v).2 = s.state) ∧
      ((count.offerAll values).taken = values.take (2 ^ 63 - 1) ∧
        ∃ i : Int64, count.finish (count.offerAll values).state = .int i ∧
          i.toInt = (count.offerAll values).taken.length) ∧
      ((∀ v ∈ values, v.type? = some .int) →
        ((sum.offerAll values).taken ≠ [] →
          ∃ i : Int64, sum.finish (sum.offerAll values).state = .int i ∧
            i.toInt = total (sum.offerAll values).taken) ∧
        ∀ n : Int64, sum.Refuses (sum.offerAll values) (.int n) ↔
          Overflows (total (sum.offerAll values).taken + n.toInt)) ∧
      ∀ type, (∀ v ∈ values, v.type? = some type) →
        ∀ f better, f = min ∧ better = .lt ∨ f = max ∧ better = .gt →
          ((f.offerAll values).taken ≠ [] → FirstBest better (f.offerAll values).taken
            (f.finish (f.offerAll values).state)) ∧
          ∀ v, v.type? = some type → (f.Refuses (f.offerAll values) v ↔
            (f.offerAll values).taken ≠ [] ∧
              (v.IsNaN ∨ (f.finish (f.offerAll values).state).IsNaN)) := by
  refine ⟨fun f hf => ?_, ?_, fun hints => ?_, fun type htype f better hbest => ?_⟩
  · obtain ⟨step, hstep⟩ := exists_stepsBy hf
    refine ⟨hstep.offerAll_taken values, fun s v hrefuses => ?_⟩
    obtain ⟨e, hfault⟩ := hstep.refuses_iff.mp hrefuses
    rw [hstep s.state v, hfault]
    rfl
  · have hcounts := counts_offerAll values
    obtain ⟨i, hstate, hi⟩ := hcounts.held
    refine ⟨hcounts.taken, i, ?_, hi⟩
    rw [hstate]
    rfl
  · have hsums := sums_offerAll hints
    refine ⟨fun hne => ?_, hsums.refuses_iff⟩
    obtain ⟨i, hstate, hi⟩ := hsums.held hne
    refine ⟨i, ?_, hi⟩
    rw [hstate]
    rfl
  · rcases hbest with ⟨rfl, rfl⟩ | ⟨rfl, rfl⟩
    · exact best_offerAll nofun htype rfl
    · exact best_offerAll nofun htype rfl

/-- A sum goes on with the next integer after one that it refused, and of two zeros the first is the
least, before a NaN is refused. -/
theorem builtins_keep_accepted_past_faults :
    let ints : List Value := [.int Int64.maxValue, .int 1, .int (-5)]
    let floats : List Value := [.float (Binary64.zero false), .float (Binary64.zero true),
      .float Binary64.nan]
    (sum.offerAll ints).taken = [.int Int64.maxValue, .int (-5)] ∧
      (∃ i : Int64, sum.finish (sum.offerAll ints).state = .int i ∧
        i.toInt = total [.int Int64.maxValue, .int (-5)]) ∧
      sum.Refuses (sum.offerAll ints) (.int 6) ∧
      (min.offerAll floats).taken = [.float (Binary64.zero false), .float (Binary64.zero true)] ∧
      FirstBest .lt (min.offerAll floats).taken (min.finish (min.offerAll floats).state) ∧
      min.Refuses (min.offerAll floats) (.float Binary64.nan) := by
  intro ints floats
  have hints : ∀ v ∈ ints, v.type? = some .int := by decide +kernel
  have hfloats : ∀ v ∈ floats, v.type? = some .float := by decide +kernel
  have hsummed : (sum.offerAll ints).taken = [.int Int64.maxValue, .int (-5)] := by decide +kernel
  have hleast : (min.offerAll floats).taken =
      [.float (Binary64.zero false), .float (Binary64.zero true)] := by decide +kernel
  obtain ⟨-, -, hsum, -⟩ := builtins_keep_accepted ints
  obtain ⟨hresult, hrefuses⟩ := hsum hints
  obtain ⟨-, -, -, hbest⟩ := builtins_keep_accepted floats
  obtain ⟨hfirst, hnan⟩ := hbest .float hfloats min .lt (.inl ⟨rfl, rfl⟩)
  have hsome : (min.offerAll floats).taken ≠ [] := by rw [hleast]; exact nofun
  refine ⟨hsummed, hsummed ▸ hresult (by rw [hsummed]; exact nofun), ?_, hleast, hfirst hsome, ?_⟩
  · apply (hrefuses 6).mpr
    rw [hsummed]
    exact .inr (by decide +kernel)
  · have hnot : (Value.float Binary64.nan).IsNaN := by
      show Binary64.nan.isNaN = true
      decide +kernel
    exact (hnan _ rfl).mpr ⟨hsome, .inl hnot⟩

end AggregateFunction
end OrderedQuery
