import OrderedQuery.Plan.IndexScan
import OrderedQuery.Proofs.Index.Keys
import OrderedQuery.Proofs.Store.Walk

/-!
# The range of a scan

A bound of a scan speaks about the logical values of leading columns.  The range of keys
that a scan computes from its bounds holds the keys of exactly those rows that satisfy
them, in whatever direction the bounded columns are stored.
-/

namespace OrderedQuery

/-- An order that satisfies a low bound. -/
def OrderAbove (o : Ordering) (inclusive : Bool) : Prop :=
  o = .gt ∨ (inclusive = true ∧ o = .eq)

/-- An order that satisfies a high bound. -/
def OrderBelow (o : Ordering) (inclusive : Bool) : Prop :=
  o = .lt ∨ (inclusive = true ∧ o = .eq)

/-- In reverse order a low bound is a high one. -/
theorem orderAbove_swap : (fun o : Ordering => OrderAbove o.swap) = OrderBelow := by
  funext o inclusive
  cases o <;> simp [OrderAbove, OrderBelow]

/-- In reverse order a high bound is a low one. -/
theorem orderBelow_swap : (fun o : Ordering => OrderBelow o.swap) = OrderAbove := by
  funext o inclusive
  cases o <;> simp [OrderAbove, OrderBelow]

namespace Index

/-- The order of the first columns of a row and the values of a bound, by the total order of
values and whatever the direction of the columns.  A coordinate group counts as its place on
the z-order curve. -/
def compareBound (ix : Index) (row bound : List Value) : Ordering :=
  (ix.collapse (row.take bound.length)).compareLex Value.totalCompare (ix.collapse bound)

/-- A row satisfies a low bound. -/
def MeetsLow (ix : Index) (bound : List Value) (inclusive : Bool) (row : List Value) : Prop :=
  OrderAbove (ix.compareBound row bound) inclusive

/-- A row satisfies a high bound. -/
def MeetsHigh (ix : Index) (bound : List Value) (inclusive : Bool) (row : List Value) :
    Prop :=
  OrderBelow (ix.compareBound row bound) inclusive

/-- The order of the key of a row and the key of a bound, as columns are stored. -/
def storedOrder (ix : Index) (row bound : List Value) : Ordering :=
  Key.compareColumns ix.descents (ix.collapse (row.take bound.length)) (ix.collapse bound)

/-- The requested order of leading columns is that of the index, not its reverse. -/
def Follows (ix : Index) (ordering : List Bool) : Bool :=
  (ordering.zip ix.columns).all fun (ascending, c) => ascending == c.ascending

variable {ix : Index}

/-- The key of a row begins with a code word of its own as long as a bound. -/
theorem exists_settled?_bound (hv : ix.Valid) {row bound : List Value} {k b : Bytes}
    (hk : ix.encodeRow row = .ok k) (hb : ix.encodeLeading bound = .ok b) :
    ∃ word tail, k = word ++ tail ∧
      Bytes.settled? word b = some (ix.storedOrder row bound) := by
  obtain ⟨hlength, -, rfl⟩ := encodeRow_eq_ok hv hk
  obtain ⟨hbound, rfl⟩ := encodeLeading_eq_ok hv hb
  have hinitial : ix.collapse (row.take bound.length) <+: ix.collapse row :=
    collapse_take hv hbound.whole
  obtain ⟨tail, htail⟩ := hinitial
  have htake : (row.take bound.length).length = bound.length := by
    rw [List.length_take]
    have hle := hbound.whole.1
    omega
  have hcount : (ix.collapse (row.take bound.length)).length ≤ ix.descents.length := by
    rw [← length_collapse hv hlength, ← htail, List.length_append]
    omega
  have hsettled := Key.settled?_encodeAll (length_collapse_congr htake) hcount
  rw [← htail, Key.encodeAll_zip_append]
  exact ⟨_, _, rfl, hsettled⟩

theorem lt_bound_iff (hv : ix.Valid) {row bound : List Value} {k b : Bytes}
    (hk : ix.encodeRow row = .ok k) (hb : ix.encodeLeading bound = .ok b) :
    k < b ↔ ix.storedOrder row bound = .lt := by
  obtain ⟨word, tail, rfl, hsettled⟩ := exists_settled?_bound hv hk hb
  have hcompare := Bytes.compare_append hsettled tail []
  rw [List.append_nil] at hcompare
  rw [← Bytes.compare_eq_lt_iff, hcompare]
  cases ix.storedOrder row bound with
  | lt => simp
  | eq => simpa using Bytes.compare_nil_right tail
  | gt => simp

theorem bound_prefix_iff (hv : ix.Valid) {row bound : List Value} {k b : Bytes}
    (hk : ix.encodeRow row = .ok k) (hb : ix.encodeLeading bound = .ok b) :
    b <+: k ↔ ix.storedOrder row bound = .eq := by
  obtain ⟨word, tail, rfl, hsettled⟩ := exists_settled?_bound hv hk hb
  constructor
  · rintro ⟨rest, hrest⟩
    have hcompare := Bytes.compare_append hsettled tail rest
    rw [hrest, Std.ReflOrd.compare_self] at hcompare
    exact (Ordering.then_eq_eq.mp hcompare.symm).1
  · intro heq
    rw [heq] at hsettled
    rw [Bytes.eq_of_settled? hsettled]
    exact List.prefix_append _ _

/-- Above a bound and not beginning with it. -/
theorem bound_lt_and_not_prefix_iff (hv : ix.Valid) {row bound : List Value} {k b : Bytes}
    (hk : ix.encodeRow row = .ok k) (hb : ix.encodeLeading bound = .ok b) :
    b < k ∧ ¬b <+: k ↔ ix.storedOrder row bound = .gt := by
  have hlt := lt_bound_iff hv hk hb
  have hinitial := bound_prefix_iff hv hk hb
  constructor
  · rintro ⟨hbk, hnot⟩
    cases ho : ix.storedOrder row bound with
    | lt => exact absurd (List.lt_trans hbk (hlt.mpr ho)) (List.lt_irrefl b)
    | eq => exact absurd (hinitial.mpr ho) hnot
    | gt => rfl
  · intro ho
    rw [ho] at hlt hinitial
    have hnot : ¬b <+: k := fun hp => nomatch hinitial.mp hp
    have hle : b ≤ k := List.not_lt.mp fun h => nomatch hlt.mp h
    refine ⟨Std.lt_of_le_of_ne hle fun heq => hnot (heq ▸ List.prefix_refl b), hnot⟩

/-- Columns of one direction are stored in the order of their values, or in the reverse
order. -/
theorem storedOrder_of_uniform (hv : ix.Valid) {descending : Bool}
    {row bound : List Value} (hrow : row.length = ix.columns.length)
    (hbound : ix.Whole bound.length) (hu : ix.Uniform descending bound.length) :
    ix.storedOrder row bound =
      if descending then (ix.compareBound row bound).swap else ix.compareBound row bound := by
  have htake : (row.take bound.length).length = bound.length := by
    rw [List.length_take]
    have hle := hbound.1
    omega
  have hcount : (ix.collapse (row.take bound.length)).length ≤ ix.descents.length := by
    rw [← length_collapse hv hrow]
    exact (collapse_take hv hbound).length_le
  have hall := descents_of_uniform hv (row.take bound.length)
    (htake.symm ▸ hbound) (htake.symm ▸ hu)
  exact Key.compareColumns_of_all_eq (length_collapse_congr htake) hcount hall

end Index

namespace IndexScan

/-- The lower end of the range of keys admits the keys above the bound. -/
theorem lowEnd_admitsAbove_iff {ix : Index} (hv : ix.Valid) {row bound : List Value}
    {k b : Bytes} (hk : ix.encodeRow row = .ok k) (hb : ix.encodeLeading bound = .ok b)
    (inclusive : Bool) :
    (∃ low, lowEnd (some (b, inclusive)) = some low ∧ low.admitsAbove k) ↔
      OrderAbove (ix.storedOrder row bound) inclusive := by
  cases inclusive with
  | true =>
      have hlt := Index.lt_bound_iff hv hk hb
      simp only [lowEnd, Option.some.injEq, exists_eq_left', Bound.admitsAbove,
        decide_eq_true_eq, ← List.not_lt, hlt, OrderAbove, true_and]
      cases ix.storedOrder row bound <;> simp
  | false =>
      have hgt := Index.bound_lt_and_not_prefix_iff hv hk hb
      have habove : OrderAbove (ix.storedOrder row bound) false ↔
          ix.storedOrder row bound = .gt := by
        simp [OrderAbove]
      rw [habove, ← hgt, ← Key.exists_successor?_le_iff]
      simp [lowEnd, Bound.admitsAbove]

/-- The upper end of the range of keys admits the keys below the bound. -/
theorem highEnd_admitsBelow_iff {ix : Index} (hv : ix.Valid) {row bound : List Value}
    {k b : Bytes} (hk : ix.encodeRow row = .ok k) (hb : ix.encodeLeading bound = .ok b)
    (inclusive : Bool) :
    (highEnd (some (b, inclusive))).admitsBelow k ↔
      OrderBelow (ix.storedOrder row bound) inclusive := by
  cases inclusive with
  | false =>
      have hlt := Index.lt_bound_iff hv hk hb
      simp [highEnd, Bound.admitsBelow, hlt, OrderBelow]
  | true =>
      have hgt := Index.bound_lt_and_not_prefix_iff hv hk hb
      have hbelow : OrderBelow (ix.storedOrder row bound) true ↔
          ¬ix.storedOrder row bound = .gt := by
        cases ix.storedOrder row bound <;> simp [OrderBelow]
      rw [hbelow, ← hgt, ← Key.exists_successor?_le_iff, highEnd]
      cases Key.successor? b <;> simp [Bound.admitsBelow]

/-! ## Accepted scans -/

/-- What acceptance of a scan guarantees: its bounds stand in columns of one direction. -/
theorem build_eq_ok {ix : Index} {range : ScanRange} {ordering : List Bool} {s : IndexScan}
    (h : build ix range ordering = .ok s) :
    s.index = ix ∧ s.range = range ∧ s.rowType = rowTypeOf ix ∧
      scanDirection ix ordering = .ok s.direction ∧
      ∀ b ∈ range.bounds, ix.Uniform s.boundsDescending b.values.length := by
  rw [build] at h
  cases hdirection : scanDirection ix ordering with
  | error e => rw [hdirection] at h; cases h
  | ok direction =>
      rw [hdirection] at h
      cases hbounds : checkBounds ix range.bounds with
      | error e =>
          simp only [bind, Except.bind, hbounds] at h
          cases h
      | ok u =>
          simp only [bind, Except.bind, hbounds] at h
          split at h
          · cases h
          · rename_i hmixed
            obtain rfl := Except.ok.inj h
            refine ⟨rfl, rfl, rfl, rfl, fun b hb c hc => ?_⟩
            have hle : b.values.length ≤
                (range.bounds.map fun b => b.values.length).foldl max 0 := by
              obtain ⟨low, high⟩ := range
              cases low <;> cases high <;> simp [ScanRange.bounds] at hb ⊢ <;> grind
            have hin := List.IsPrefix.mem hc (List.take_prefix_take_left hle)
            simp only [List.any_eq_true, beq_iff_eq, not_exists, not_and] at hmixed
            exact Bool.eq_not.mpr (hmixed c hin)

/-- A scan goes forward if the requested order is that of the index, and backward
otherwise. -/
theorem scanDirection_eq_ok {ix : Index} {ordering : List Bool} {direction : Direction}
    (h : scanDirection ix ordering = .ok direction) :
    direction = if ix.Follows ordering then .forward else .backward := by
  rw [scanDirection] at h
  dsimp only at h
  split at h
  · cases h
  · split at h
    · rename_i hfollows
      rw [Index.Follows, if_pos hfollows, ← Except.ok.inj h]
    · rename_i hfollows
      split at h
      · rw [Index.Follows, if_neg hfollows, ← Except.ok.inj h]
      · cases h

/-- A row satisfies the bounds of a scan in an environment. -/
structure Admits (s : IndexScan) (env : Env) (row : List Value) : Prop where
  low : ∀ b, s.range.low = some b → ∀ values, evalAll env b.values = .ok values →
    s.index.MeetsLow values b.inclusive row
  high : ∀ b, s.range.high = some b → ∀ values, evalAll env b.values = .ok values →
    s.index.MeetsHigh values b.inclusive row

/-- Both bounds have values in an environment, and these values have keys. -/
def Encodes (s : IndexScan) (env : Env) : Prop :=
  ∀ b ∈ s.range.bounds, ∃ values key,
    evalAll env b.values = .ok values ∧ s.index.encodeLeading values = .ok key

variable {s : IndexScan} {env : Env}

/-- The key of a bound and whether it is inclusive, if there is a bound. -/
inductive HasCode (s : IndexScan) (env : Env) :
    Option ScanBound → Option (Bytes × Bool) → Prop where
  | absent : HasCode s env none none
  | present {b : ScanBound} {values : List Value} {key : Bytes}
      (hvalues : evalAll env b.values = .ok values)
      (hkey : s.index.encodeLeading values = .ok key) :
      HasCode s env (some b) (some (key, b.inclusive))

theorem Encodes.exists_code (h : s.Encodes env) (bound : Option ScanBound)
    (hmem : ∀ b, bound = some b → b ∈ s.range.bounds) :
    ∃ code, s.encodeBound env bound = .ok code ∧ s.HasCode env bound code := by
  cases bound with
  | none => exact ⟨none, rfl, .absent⟩
  | some b =>
      obtain ⟨values, key, hvalues, hkey⟩ := h b (hmem b rfl)
      refine ⟨some (key, b.inclusive), ?_, .present hvalues hkey⟩
      rw [encodeBound, hvalues]
      show ((s.index.encodeLeading values).mapError QueryError.index >>= _) = _
      rw [hkey]
      rfl

theorem evalAll_length {env : Env} {es : List Expr} {values : List Value}
    (h : evalAll env es = .ok values) : values.length = es.length := by
  induction es generalizing values with
  | nil =>
      obtain rfl := Except.ok.inj h
      rfl
  | cons e es ih =>
      rw [evalAll] at h
      cases hv : e.eval none env with
      | error e => rw [hv] at h; cases h
      | ok v =>
          cases hvs : evalAll env es with
          | error e => simp [hv, hvs, bind, Except.bind] at h
          | ok vs =>
              simp only [hv, hvs, bind, Except.bind, Except.ok.injEq] at h
              rw [← h, List.length_cons, List.length_cons, ih hvs]

/-- The range of keys that two bounds leave, given in the order of keys. -/
def between (lower upper : Option (Bytes × Bool)) : Option KeyRange :=
  match lowEnd lower with
  | none => none
  | some start =>
      if KeyRange.isEmpty ⟨start, highEnd upper⟩ then none else some ⟨start, highEnd upper⟩

theorem keyRange_eq_between {low high : Option (Bytes × Bool)}
    (hlow : s.encodeBound env s.range.low = .ok low)
    (hhigh : s.encodeBound env s.range.high = .ok high) :
    s.keyRange env = .ok (if s.boundsDescending then between high low
      else between low high) := by
  rw [keyRange, hlow, hhigh]
  cases hdescending : s.boundsDescending with
  | false =>
      simp only [bind, Except.bind, Bool.false_eq_true, if_false, between]
      cases lowEnd low <;> rfl
  | true =>
      simp only [bind, Except.bind, if_true, between]
      cases lowEnd high <;> rfl

theorem between_contains_iff (lower upper : Option (Bytes × Bool)) (k : Bytes) :
    (∃ r, between lower upper = some r ∧ r.contains k) ↔
      (∃ low, lowEnd lower = some low ∧ low.admitsAbove k) ∧
        (highEnd upper).admitsBelow k := by
  rw [between]
  cases hlow : lowEnd lower with
  | none => simp
  | some start =>
      have hcontains : (⟨start, highEnd upper⟩ : KeyRange).contains k ↔
          start.admitsAbove k ∧ (highEnd upper).admitsBelow k := by
        rw [KeyRange.contains, Bool.and_eq_true]
      simp only [Option.some.injEq, exists_eq_left']
      rw [← hcontains]
      split
      · rename_i hempty
        simp [KeyRange.not_contains_of_isEmpty hempty]
      · simp

/-- What a bound demands of the order of a row and the values of the bound. -/
def Demands (env : Env) (bound : Option ScanBound) (accepts : Ordering → Bool → Prop)
    (order : List Value → Ordering) : Prop :=
  ∀ b, bound = some b → ∀ values, evalAll env b.values = .ok values →
    accepts (order values) b.inclusive

theorem demands_none {accepts : Ordering → Bool → Prop} {order : List Value → Ordering} :
    Demands env none accepts order :=
  fun _ hb => nomatch hb

theorem demands_some_iff {b : ScanBound} {values : List Value}
    (hvalues : evalAll env b.values = .ok values) {accepts : Ordering → Bool → Prop}
    {order : List Value → Ordering} :
    Demands env (some b) accepts order ↔ accepts (order values) b.inclusive := by
  constructor
  · intro h
    exact h b rfl values hvalues
  · rintro h _ ⟨⟩ values' hvalues'
    obtain rfl := Except.ok.inj (hvalues.symm.trans hvalues')
    exact h

theorem admits_iff (s : IndexScan) (env : Env) (row : List Value) :
    s.Admits env row ↔
      Demands env s.range.low OrderAbove (s.index.compareBound row) ∧
        Demands env s.range.high OrderBelow (s.index.compareBound row) :=
  ⟨fun h => ⟨h.low, h.high⟩, fun h => ⟨h.1, h.2⟩⟩

theorem HasCode.lowEnd_iff (hv : s.index.Valid) {bound : Option ScanBound}
    {code : Option (Bytes × Bool)} (h : s.HasCode env bound code) {row : List Value}
    {k : Bytes} (hk : s.index.encodeRow row = .ok k) :
    (∃ low, lowEnd code = some low ∧ low.admitsAbove k) ↔
      Demands env bound OrderAbove (s.index.storedOrder row) := by
  cases h with
  | absent => exact iff_of_true ⟨.unbounded, rfl, rfl⟩ demands_none
  | present hvalues hkey =>
      rw [lowEnd_admitsAbove_iff hv hk hkey, demands_some_iff hvalues]

theorem HasCode.highEnd_iff (hv : s.index.Valid) {bound : Option ScanBound}
    {code : Option (Bytes × Bool)} (h : s.HasCode env bound code) {row : List Value}
    {k : Bytes} (hk : s.index.encodeRow row = .ok k) :
    (highEnd code).admitsBelow k ↔
      Demands env bound OrderBelow (s.index.storedOrder row) := by
  cases h with
  | absent => exact iff_of_true rfl demands_none
  | present hvalues hkey =>
      rw [highEnd_admitsBelow_iff hv hk hkey, demands_some_iff hvalues]

/-- In columns of one direction the stored order is the logical order or its reverse. -/
theorem HasCode.demands_storedOrder_iff (hv : s.index.Valid) {bound : Option ScanBound}
    {code : Option (Bytes × Bool)} (h : s.HasCode env bound code)
    (hu : ∀ b, bound = some b → s.index.Uniform s.boundsDescending b.values.length)
    {row : List Value} (hrow : row.length = s.index.columns.length)
    (accepts : Ordering → Bool → Prop) :
    Demands env bound accepts (s.index.storedOrder row) ↔
      Demands env bound
        (fun o => accepts (if s.boundsDescending then o.swap else o))
        (s.index.compareBound row) := by
  cases h with
  | absent => exact iff_of_true demands_none demands_none
  | @present b values key hvalues hkey =>
      have hwhole := (Index.encodeLeading_eq_ok hv hkey).1.whole
      have huniform := evalAll_length hvalues ▸ hu b rfl
      rw [demands_some_iff hvalues, demands_some_iff hvalues,
        Index.storedOrder_of_uniform hv hrow hwhole huniform]

/-- The range of a scan holds the keys of the rows that satisfy its bounds. -/
theorem keyRange_contains_iff {ix : Index} {range : ScanRange} {ordering : List Bool}
    (hv : ix.Valid) (hbuild : build ix range ordering = .ok s) (hencodes : s.Encodes env) :
    ∃ found, s.keyRange env = .ok found ∧
      ∀ row key, ix.encodeRow row = .ok key →
        ((∃ r, found = some r ∧ r.contains key) ↔ s.Admits env row) := by
  obtain ⟨rfl, rfl, -, -, huniform⟩ := build_eq_ok hbuild
  obtain ⟨low, hlow, hlowCode⟩ := hencodes.exists_code s.range.low
    fun b hb => by simp [ScanRange.bounds, hb]
  obtain ⟨high, hhigh, hhighCode⟩ := hencodes.exists_code s.range.high
    fun b hb => by simp [ScanRange.bounds, hb]
  have hlowUniform (b : ScanBound) (hb : s.range.low = some b) :
      s.index.Uniform s.boundsDescending b.values.length :=
    huniform b (by simp [ScanRange.bounds, hb])
  have hhighUniform (b : ScanBound) (hb : s.range.high = some b) :
      s.index.Uniform s.boundsDescending b.values.length :=
    huniform b (by simp [ScanRange.bounds, hb])
  refine ⟨_, keyRange_eq_between hlow hhigh, fun row key hkey => ?_⟩
  have hrow := (Index.encodeRow_eq_ok hv hkey).1
  rw [admits_iff]
  cases hdescending : s.boundsDescending with
  | false =>
      simp only [Bool.false_eq_true, if_false]
      rw [between_contains_iff, hlowCode.lowEnd_iff hv hkey, hhighCode.highEnd_iff hv hkey,
        hlowCode.demands_storedOrder_iff hv hlowUniform hrow,
        hhighCode.demands_storedOrder_iff hv hhighUniform hrow]
      simp [hdescending]
  | true =>
      simp only [if_true]
      rw [between_contains_iff, hhighCode.lowEnd_iff hv hkey, hlowCode.highEnd_iff hv hkey,
        hhighCode.demands_storedOrder_iff hv hhighUniform hrow,
        hlowCode.demands_storedOrder_iff hv hlowUniform hrow]
      simp only [hdescending, if_true]
      rw [orderAbove_swap, orderBelow_swap]
      exact and_comm

end IndexScan
end OrderedQuery
