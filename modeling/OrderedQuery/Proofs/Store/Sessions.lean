import OrderedQuery.Proofs.Query.Locality
import OrderedQuery.Store.Engine

/-!
# Sessions over one store

Any number of sessions call one engine in any order, as long as none has to wait for another.
There is one committed state.  A session outside a transaction reads it; one inside a
transaction reads what was committed when the transaction began, together with its own writes
(`Engine.serial_of_reaches`).  As there is one writer at a time, nothing else is committed while
a transaction writes, and committing it adds its writes to what is committed then.
-/

namespace OrderedQuery

/-! ## Calls -/

/-- A call of a session. -/
inductive SessionCall where
  | begin (mode : Mode)
  | commit
  | rollback
  | put (table : String) (key value : Bytes)
  | scan (table : String) (range : KeyRange) (resume : Option Bytes) (direction : Direction)
      (limit : Nat)
  /-- Makes another session. -/
  | derive
  deriving DecidableEq, Repr

/-- What a call of a session answers. -/
inductive SessionReply where
  | done
  | entries (entries : List Entry)
  | session (s : SessionId)
  deriving DecidableEq, Repr

/-- The call needs the one writer if it is made outside a transaction. -/
def SessionCall.writes : SessionCall → Bool
  | .begin mode => decide (mode = .readWrite)
  | .put .. => true
  | _ => false

namespace Engine

/-- The outcome of a call that may be refused. -/
def settle (e : Engine) : Except StoreError Engine → Except StoreError SessionReply × Engine
  | .error err => (.error err, e)
  | .ok e' => (.ok .done, e')

/-- Carries out a call of a session. -/
def call (e : Engine) (s : SessionId) : SessionCall → Except StoreError SessionReply × Engine
  | .begin mode => e.settle (e.begin s mode)
  | .commit => e.settle (e.commit s)
  | .rollback => (.ok .done, e.rollback s)
  | .put table key value => e.settle (e.put s table key value)
  | .scan table range resume direction limit =>
      (.ok (.entries (e.scan s table range resume direction limit)), e)
  | .derive => (.ok (.session e.derive.1), e.derive.2)

/-- The call is refused: a second transaction of a session, the end of one it does not have, a
write in one that only reads. -/
def Refuses (e : Engine) (s : SessionId) : SessionCall → Prop
  | .begin _ => ∃ t, e.transaction? s = some t
  | .commit => e.transaction? s = none
  | .put .. => ∃ t, e.transaction? s = some t ∧ t.mode = .readOnly
  | _ => False

/-- What is committed after a call. -/
def committedAfter (e : Engine) (s : SessionId) : SessionCall → Store
  | .put table key value =>
      match e.transaction? s with
      | none => e.committed.insert (Layout.storedKey table key) value
      | some _ => e.committed
  | .commit =>
      match e.transaction? s with
      | some ⟨.readWrite, store⟩ => store
      | _ => e.committed
  | _ => e.committed

/-- The transaction of the session that makes a call, after the call. -/
def ownAfter (e : Engine) (s : SessionId) : SessionCall → Option Transaction
  | .begin mode =>
      match e.transaction? s with
      | none => some ⟨mode, e.committed⟩
      | some t => some t
  | .commit => none
  | .rollback => none
  | .put table key value =>
      match e.transaction? s with
      | some ⟨.readWrite, store⟩ =>
          some ⟨.readWrite, store.insert (Layout.storedKey table key) value⟩
      | t? => t?
  | .scan .. => e.transaction? s
  | .derive => e.transaction? s

/-- What a call does. -/
structure Effect (e : Engine) (s : SessionId) (c : SessionCall)
    (result : Except StoreError SessionReply) (after : Engine) : Prop where
  transactions : ∀ r, after.transaction? r = if r = s then e.ownAfter s c else e.transaction? r
  committed : after.committed = e.committedAfter s c
  refused : e.Refuses s c → (∃ err, result = .error err) ∧ after = e
  served : ¬ e.Refuses s c → ∃ reply, result = .ok reply
  issued : e.issued ≤ after.issued

end Engine

/-! ## One call -/

/-- Replacing what stands at a key that is there. -/
theorem List.lookup_map_replace {α β : Type} [DecidableEq α] (a : α) (b : β) (l : List (α × β))
    (c : α) :
    (l.map fun (a', b') => if a' = a then (a', b) else (a', b')).lookup c =
      if c = a then (l.lookup c).map fun _ => b else l.lookup c := by
  induction l with
  | nil => simp
  | cons x l ih =>
      obtain ⟨a', b'⟩ := x
      have hskip (h : c ≠ a') (y : β) (l' : List (α × β)) :
          ((a', y) :: l').lookup c = l'.lookup c := by
        rw [List.lookup_cons, beq_false_of_ne h]
      rw [List.map_cons]
      by_cases hc : c = a'
      · subst hc
        by_cases ha : c = a <;> simp [ha]
      · rw [hskip hc, ← ih]
        dsimp only
        split <;> exact hskip hc _ _

namespace Engine

variable {e : Engine} {s r : SessionId}

theorem transaction?_release (e : Engine) (s r : SessionId) :
    (e.release s).transaction? r = if r = s then none else e.transaction? r := by
  split
  · rename_i h
    subst h
    rw [transaction?, release, List.lookup_eq_none_iff]
    intro x hx
    exact bne_iff_ne.mpr (bne_iff_ne.mp (List.mem_filter.mp hx).2).symm
  · rename_i h
    exact List.lookup_filter_of_pos (p := fun s' => s' != s) (bne_iff_ne.mpr h) e.active

theorem transaction?_assign {t : Transaction} (h : e.transaction? s = some t) (t' : Transaction)
    (r : SessionId) :
    (e.assign s t').transaction? r = if r = s then some t' else e.transaction? r := by
  refine (List.lookup_map_replace s t' e.active r).trans ?_
  split
  · rename_i hr
    subst hr
    rw [transaction?] at h
    rw [h]
    rfl
  · rfl

theorem transaction?_enter (h : e.transaction? s = none) (t : Transaction) (r : SessionId) :
    transaction? { e with active := e.active ++ [(s, t)] } r =
      if r = s then some t else e.transaction? r := by
  rw [transaction?, List.lookup_append]
  split
  · rename_i hr
    subst hr
    rw [transaction?] at h
    simp [h]
  · rename_i hr
    rw [List.lookup_cons, beq_false_of_ne hr]
    exact Option.or_none

/-- A call that leaves the engine as it is. -/
theorem effect_same {c : SessionCall} {result : Except StoreError SessionReply}
    (hown : e.ownAfter s c = e.transaction? s) (hcommitted : e.committedAfter s c = e.committed)
    (hrefused : e.Refuses s c → ∃ err, result = .error err)
    (hserved : ¬ e.Refuses s c → ∃ reply, result = .ok reply) : Effect e s c result e where
  transactions r := by
    split
    · rename_i hr
      rw [hr, hown]
    · rfl
  committed := hcommitted.symm
  refused h := ⟨hrefused h, rfl⟩
  served := hserved
  issued := Nat.le_refl _

theorem effect_refused {c : SessionCall} (h : e.Refuses s c)
    (hown : e.ownAfter s c = e.transaction? s) (hcommitted : e.committedAfter s c = e.committed)
    (err : StoreError) : Effect e s c (.error err) e :=
  effect_same hown hcommitted (fun _ => ⟨err, rfl⟩) (absurd h)

/-- A session enters a transaction unless it is inside of one. -/
theorem effect_begin (e : Engine) (s : SessionId) (mode : Mode) :
    Effect e s (.begin mode) (e.call s (.begin mode)).1 (e.call s (.begin mode)).2 := by
  cases h : e.transaction? s with
  | some t =>
      have hrefused : e.begin s mode = .error .alreadyActive := by
        simp [begin, inTransaction, h]
      rw [call, hrefused]
      exact effect_refused (c := .begin mode) ⟨t, h⟩ (by rw [ownAfter, h]) rfl _
  | none =>
      have hbegun : e.begin s mode = .ok { e with
          active := e.active ++ [(s, ⟨mode, e.committed⟩)] } := by
        simp [begin, inTransaction, h]
      rw [call, hbegun]
      refine ⟨?_, rfl, ?_, fun _ => ⟨_, rfl⟩, Nat.le_refl _⟩
      · rw [ownAfter, h]
        exact transaction?_enter h _
      · rintro ⟨t, ht⟩
        rw [h] at ht
        cases ht

/-- The transaction of a session is over, and what it has written is committed. -/
theorem effect_commit (e : Engine) (s : SessionId) :
    Effect e s .commit (e.call s .commit).1 (e.call s .commit).2 := by
  cases h : e.transaction? s with
  | none =>
      have hrefused : e.commit s = .error .notActive := by rw [commit, h]
      rw [call, hrefused]
      exact effect_refused (c := .commit) h (by rw [ownAfter, h]) (by rw [committedAfter, h]) _
  | some t =>
      obtain ⟨mode, store⟩ := t
      have hcommitted : e.commit s = .ok { e.release s with
          committed := e.committedAfter s .commit } := by
        rw [commit, committedAfter, h]
        cases mode <;> rfl
      rw [call, hcommitted]
      refine ⟨transaction?_release e s, rfl, ?_, fun _ => ⟨_, rfl⟩, Nat.le_refl _⟩
      intro hrefused
      rw [Refuses, h] at hrefused
      cases hrefused

/-- A write outside a transaction is committed at once. -/
theorem effect_put_outside (h : e.transaction? s = none) (table : String) (key value : Bytes) :
    Effect e s (.put table key value) (e.call s (.put table key value)).1
      (e.call s (.put table key value)).2 := by
  have hput : e.put s table key value = .ok { e with
      committed := e.committedAfter s (.put table key value) } := by
    rw [put, committedAfter, h]
  rw [call, hput]
  refine ⟨?_, rfl, ?_, fun _ => ⟨_, rfl⟩, Nat.le_refl _⟩
  · intro r
    rw [ownAfter, h]
    split
    · rename_i hr
      rw [hr]
      exact h
    · rfl
  · rintro ⟨t, ht, -⟩
    rw [h] at ht
    cases ht

/-- A write inside a transaction is seen by the transaction alone, and one that only reads
refuses it. -/
theorem effect_put_inside {t : Transaction} (h : e.transaction? s = some t) (table : String)
    (key value : Bytes) :
    Effect e s (.put table key value) (e.call s (.put table key value)).1
      (e.call s (.put table key value)).2 := by
  obtain ⟨mode, store⟩ := t
  cases mode with
  | readOnly =>
      have hrefused : e.put s table key value = .error .readOnly := by
        rw [put, h]
        rfl
      rw [call, hrefused]
      exact effect_refused (c := .put table key value) ⟨_, h, rfl⟩ (by rw [ownAfter, h])
        (by rw [committedAfter, h]) _
  | readWrite =>
      have hput : e.put s table key value = .ok (e.assign s
          ⟨.readWrite, store.insert (Layout.storedKey table key) value⟩) := by
        rw [put, h]
        rfl
      rw [call, hput]
      refine ⟨?_, ?_, ?_, fun _ => ⟨_, rfl⟩, Nat.le_refl _⟩
      · rw [ownAfter, h]
        exact transaction?_assign h _
      · rw [committedAfter, h]
        rfl
      · rintro ⟨t, ht, hmode⟩
        rw [h] at ht
        obtain rfl := Option.some.inj ht
        cases hmode

theorem effect_call (e : Engine) (s : SessionId) (c : SessionCall) :
    Effect e s c (e.call s c).1 (e.call s c).2 := by
  cases c with
  | begin mode => exact effect_begin e s mode
  | commit => exact effect_commit e s
  | rollback =>
      exact ⟨transaction?_release e s, rfl, False.elim, fun _ => ⟨_, rfl⟩, Nat.le_refl _⟩
  | put table key value =>
      cases h : e.transaction? s with
      | none => exact effect_put_outside h table key value
      | some t => exact effect_put_inside h table key value
  | scan table range resume direction limit =>
      exact effect_same rfl rfl False.elim fun _ => ⟨_, rfl⟩
  | derive =>
      have hsame : Effect e s .derive (.ok (.session e.issued)) e :=
        effect_same rfl rfl False.elim fun _ => ⟨_, rfl⟩
      exact ⟨hsame.transactions, rfl, False.elim, fun _ => ⟨_, rfl⟩, Nat.le_succ _⟩

theorem view_of_some {t : Transaction} (h : e.transaction? s = some t) : e.view s = t.store := by
  rw [view, h]
  rfl

theorem view_of_none (h : e.transaction? s = none) : e.view s = e.committed := by
  rw [view, h]
  rfl

theorem view_congr {e' : Engine} (htransaction : e'.transaction? s = e.transaction? s)
    (hcommitted : e'.committed = e.committed) : e'.view s = e.view s := by
  rw [view, view, htransaction, hcommitted]

/-! ## Runs -/

/-- Calls of sessions that have been handed out, one after the other.  No call would have to
wait for another session. -/
inductive Reaches (start : Engine) : List (SessionId × SessionCall) → Engine → Prop
  | nothing : Reaches start [] start
  | call {calls : List (SessionId × SessionCall)} {e : Engine} (h : Reaches start calls e)
      {s : SessionId} (hissued : s < e.issued) {c : SessionCall}
      (hready : c.writes = true → e.mustWait s = false) :
      Reaches start (calls ++ [(s, c)]) (e.call s c).2

/-- The session is inside a transaction that writes. -/
def Writing (e : Engine) (s : SessionId) : Prop :=
  ∃ t, e.transaction? s = some t ∧ t.mode = .readWrite

/-- Adds a write of a session to what it reads. -/
def ownPut (s : SessionId) (store : Store) : SessionId × SessionCall → Store
  | (r, .put table key value) =>
      if r = s then store.insert (Layout.storedKey table key) value else store
  | _ => store

/-- The transaction `t` of a session after the given calls: it began after the calls `before`,
from the engine `begun`, and the calls `during` came later. -/
structure Since (start : Engine) (calls : List (SessionId × SessionCall)) (e : Engine)
    (s : SessionId) (t : Transaction) (before : List (SessionId × SessionCall)) (begun : Engine)
    (during : List (SessionId × SessionCall)) : Prop where
  calls_eq : calls = before ++ (s, .begin t.mode) :: during
  reaches : start.Reaches before begun
  outside : begun.transaction? s = none
  unfinished : ∀ c ∈ during, c ≠ (s, .commit) ∧ c ≠ (s, .rollback)
  /-- It sees what was committed then and, if it writes, what it has written since. -/
  reads : t.store = match t.mode with
    | .readOnly => begun.committed
    | .readWrite => during.foldl (ownPut s) begun.committed
  /-- Nothing has been committed since if it writes. -/
  current : t.mode = .readWrite → e.committed = begun.committed

variable {start : Engine} {calls : List (SessionId × SessionCall)} {c : SessionCall}

theorem hasWriter_of_writing (h : e.Writing s) : e.hasWriter = true := by
  obtain ⟨t, ht, hmode⟩ := h
  obtain ⟨_, _, heq, -⟩ := List.lookup_eq_some_iff.mp ht
  refine List.any_eq_true.mpr ⟨(s, t), ?_, decide_eq_true hmode⟩
  rw [heq]
  exact List.mem_append_right _ List.mem_cons_self

/-- A call that writes and is made outside a transaction does not wait for anybody. -/
theorem not_writing_of_ready (hready : c.writes = true → e.mustWait s = false)
    (hwrites : c.writes = true) (h : e.transaction? s = none) (r : SessionId) : ¬ e.Writing r := by
  intro hr
  have hwait := hready hwrites
  rw [mustWait, inTransaction, h, hasWriter_of_writing hr] at hwait
  cases hwait

theorem ownAfter_of_none (h : e.transaction? s = none) {t : Transaction}
    (hown : e.ownAfter s c = some t) : c = .begin t.mode ∧ t.store = e.committed := by
  cases c with
  | begin mode =>
      rw [ownAfter, h] at hown
      obtain rfl := Option.some.inj hown
      exact ⟨rfl, rfl⟩
  | _ => simp [ownAfter, h] at hown

theorem ownAfter_of_some {t t' : Transaction} (h : e.transaction? s = some t)
    (hown : e.ownAfter s c = some t') :
    c ≠ .commit ∧ c ≠ .rollback ∧ t'.mode = t.mode ∧
      t'.store = match t.mode with
        | .readOnly => t.store
        | .readWrite => ownPut s t.store (s, c) := by
  obtain ⟨mode, store⟩ := t
  cases c with
  | commit => cases hown
  | rollback => cases hown
  | put table key value =>
      rw [ownAfter, h] at hown
      cases mode with
      | readOnly =>
          obtain rfl := Option.some.inj hown
          exact ⟨nofun, nofun, rfl, rfl⟩
      | readWrite =>
          obtain rfl := Option.some.inj hown
          exact ⟨nofun, nofun, rfl, (if_pos rfl).symm⟩
  | _ =>
      rw [ownAfter, h] at hown
      obtain rfl := Option.some.inj hown
      cases mode <;> exact ⟨nofun, nofun, rfl, rfl⟩

/-! ## What holds after a run -/

/-- A session that has not been handed out has no transaction. -/
theorem Reaches.fresh (hquiet : start.active = []) (h : start.Reaches calls e) (s : SessionId)
    (hs : e.issued ≤ s) : e.transaction? s = none := by
  induction h with
  | nothing =>
      rw [transaction?, hquiet]
      rfl
  | @call calls e h s' hissued c hready ih =>
      have heffect := e.effect_call s' c
      have hs' : e.issued ≤ s := Nat.le_trans heffect.issued hs
      have hne : s ≠ s' := Nat.ne_of_gt (Nat.lt_of_lt_of_le hissued hs')
      rw [heffect.transactions, if_neg hne]
      exact ih hs'

theorem Reaches.one_writer (hquiet : start.active = []) (h : start.Reaches calls e)
    {s s' : SessionId} (hs : e.Writing s) (hs' : e.Writing s') : s = s' := by
  induction h generalizing s s' with
  | nothing =>
      obtain ⟨t, ht, -⟩ := hs
      rw [transaction?, hquiet] at ht
      cases ht
  | @call calls e h r hissued c hready ih =>
      -- a session that writes after the call did so before, or begins to when nobody does
      have hbefore {q : SessionId} (hq : (e.call r c).2.Writing q) :
          e.Writing q ∨ q = r ∧ ∀ p, ¬ e.Writing p := by
        obtain ⟨t, ht, hmode⟩ := hq
        rw [(e.effect_call r c).transactions] at ht
        split at ht
        · rename_i hqr
          cases hr : e.transaction? r with
          | none =>
              obtain ⟨rfl, -⟩ := ownAfter_of_none hr ht
              exact .inr ⟨hqr, not_writing_of_ready hready (decide_eq_true hmode) hr⟩
          | some t' =>
              obtain ⟨-, -, hsame, -⟩ := ownAfter_of_some hr ht
              exact .inl (hqr ▸ ⟨t', hr, hsame ▸ hmode⟩)
        · exact .inl ⟨t, ht, hmode⟩
      rcases hbefore hs with hold | ⟨rfl, hnobody⟩
      · rcases hbefore hs' with hold' | ⟨-, hnobody⟩
        · exact ih hold hold'
        · exact absurd hold (hnobody s)
      · rcases hbefore hs' with hold' | ⟨rfl, -⟩
        · exact absurd hold' (hnobody s')
        · rfl

/-- While a session writes, nothing is committed but by itself. -/
theorem Reaches.committed_call (hquiet : start.active = []) (h : start.Reaches calls e)
    (hr : e.Writing r) (hready : c.writes = true → e.mustWait s = false)
    (hend : (s, c) ≠ (r, .commit)) : (e.call s c).2.committed = e.committed := by
  rw [(e.effect_call s c).committed]
  cases c with
  | commit =>
      rw [committedAfter]
      split
      · rename_i store ht
        have heq : s = r := h.one_writer hquiet ⟨_, ht, rfl⟩ hr
        exact absurd (congrArg (·, SessionCall.commit) heq) hend
      · rfl
  | put table key value =>
      rw [committedAfter]
      split
      · rename_i ht
        exact absurd hr (not_writing_of_ready hready rfl ht r)
      · rfl
  | begin mode => rfl
  | rollback => rfl
  | scan table range resume direction limit => rfl
  | derive => rfl

/-- A call that does not end a transaction adds what the transaction writes. -/
theorem Since.call {t t' : Transaction} {before during : List (SessionId × SessionCall)}
    {begun after : Engine} (h : Since start calls e r t before begun during)
    (hend : (s, c) ≠ (r, .commit) ∧ (s, c) ≠ (r, .rollback)) (hmode : t'.mode = t.mode)
    (hstore : t'.store = match t.mode with
      | .readOnly => t.store
      | .readWrite => ownPut r t.store (s, c))
    (hcurrent : t.mode = .readWrite → after.committed = e.committed) :
    Since start (calls ++ [(s, c)]) after r t' before begun (during ++ [(s, c)]) where
  calls_eq := by rw [h.calls_eq, hmode, List.append_assoc, List.cons_append]
  reaches := h.reaches
  outside := h.outside
  unfinished := by
    intro x hx
    rcases List.mem_append.mp hx with hx | hx
    · exact h.unfinished x hx
    · exact List.mem_singleton.mp hx ▸ hend
  reads := by
    have hreads := h.reads
    rw [hmode, hstore]
    cases hm : t.mode with
    | readOnly =>
        rw [hm] at hreads
        exact hreads
    | readWrite =>
        rw [hm] at hreads
        rw [hreads, List.foldl_append]
        rfl
  current hm := (hcurrent (hmode ▸ hm)).trans (h.current (hmode ▸ hm))

/-- An open transaction goes back to where it began. -/
theorem Reaches.since (hquiet : start.active = []) (h : start.Reaches calls e) {s : SessionId}
    {t : Transaction} (ht : e.transaction? s = some t) :
    ∃ before begun during, Since start calls e s t before begun during := by
  induction h generalizing s t with
  | nothing =>
      rw [transaction?, hquiet] at ht
      cases ht
  | @call calls e h r hissued c hready ih =>
      rw [(e.effect_call r c).transactions] at ht
      split at ht
      · rename_i hsr
        subst hsr
        cases hs : e.transaction? s with
        | none =>
            obtain ⟨rfl, hstore⟩ := ownAfter_of_none hs ht
            refine ⟨calls, e, [], rfl, h, hs, nofun, ?_, fun _ => ?_⟩
            · rw [hstore]
              cases t.mode <;> rfl
            · exact (e.effect_call s (.begin t.mode)).committed
        | some t' =>
            obtain ⟨hcommit, hrollback, hmode, hstore⟩ := ownAfter_of_some hs ht
            obtain ⟨before, begun, during, hsince⟩ := ih hs
            have hend : (s, c) ≠ (s, .commit) ∧ (s, c) ≠ (s, .rollback) :=
              ⟨fun heq => hcommit (Prod.mk.inj heq).2, fun heq => hrollback (Prod.mk.inj heq).2⟩
            exact ⟨before, begun, _, hsince.call hend hmode hstore fun hwrites =>
              h.committed_call hquiet ⟨t', hs, hwrites⟩ hready hend.1⟩
      · rename_i hne
        obtain ⟨before, begun, during, hsince⟩ := ih ht
        have hend (c' : SessionCall) : (r, c) ≠ (s, c') := fun heq => hne (Prod.mk.inj heq).1.symm
        have hstore : t.store = match t.mode with
            | .readOnly => t.store
            | .readWrite => ownPut s t.store (r, c) := by
          have hother : ownPut s t.store (r, c) = t.store := by
            cases c with
            | put table key value => exact if_neg (Ne.symm hne)
            | _ => rfl
          rw [hother]
          cases t.mode <;> rfl
        exact ⟨before, begun, _, hsince.call ⟨hend _, hend _⟩ rfl hstore fun hwrites =>
          h.committed_call hquiet ⟨t, ht, hwrites⟩ hready (hend _)⟩

/-- What holds after any calls, and of any call that comes next. -/
structure Serial (start : Engine) (calls : List (SessionId × SessionCall)) (e : Engine) :
    Prop where
  inside : ∀ s t, e.transaction? s = some t →
    e.view s = t.store ∧ ∃ before begun during, Since start calls e s t before begun during
  outside : ∀ s, e.transaction? s = none → e.view s = e.committed
  one_writer : ∀ s s', e.Writing s → e.Writing s' → s = s'
  /-- The sessions that are still to be made are outside. -/
  fresh : ∀ s, e.issued ≤ s → e.transaction? s = none
  effect : ∀ s c, e.Effect s c (e.call s c).1 (e.call s c).2
  scan : ∀ s table range resume direction limit,
    e.call s (.scan table range resume direction limit) =
      (.ok (.entries ((e.view s).scan table range resume direction limit)), e)
  refused : ∀ s c err, (e.call s c).1 = .error err → (e.call s c).2 = e
  /-- The session that rolls back reads the committed state from then on. -/
  rollback : ∀ s, (e.call s .rollback).2.committed = e.committed ∧
    (e.call s .rollback).2.view s = e.committed ∧
    ∀ r ≠ s, (e.call s .rollback).2.view r = e.view r

/-- Sessions are serializable. -/
theorem serial_of_reaches (hquiet : start.active = []) (h : start.Reaches calls e) :
    Serial start calls e where
  inside s t ht := ⟨view_of_some ht, h.since hquiet ht⟩
  outside _ := view_of_none
  one_writer _ _ := h.one_writer hquiet
  fresh := h.fresh hquiet
  effect := e.effect_call
  scan _ _ _ _ _ _ := rfl
  refused s c err herr := by
    have heffect := e.effect_call s c
    by_cases hrefuses : e.Refuses s c
    · exact (heffect.refused hrefuses).2
    · obtain ⟨reply, hreply⟩ := heffect.served hrefuses
      rw [hreply] at herr
      cases herr
  rollback s := by
    have htransactions := (e.effect_call s .rollback).transactions
    have hown : (e.call s .rollback).2.transaction? s = none :=
      (htransactions s).trans (if_pos rfl)
    exact ⟨rfl, view_of_none hown, fun r hr =>
      view_congr ((htransactions r).trans (if_neg hr)) rfl⟩

/-- One session writes in a transaction and commits it while another reads. -/
theorem serial_of_reaches_two_sessions :
    let start : Engine := ⟨.empty, [], 2⟩
    let calls : List (SessionId × SessionCall) :=
      [(0, .begin .readWrite), (0, .put "t" [0x6b] [0x76]), (1, .begin .readOnly), (0, .commit)]
    ∃ e, start.active = [] ∧ start.Reaches calls e ∧ Serial start calls e := by
  intro start calls
  have hnothing : start.Reaches [] start := .nothing
  have hreaches : start.Reaches calls _ :=
    (((hnothing.call (by decide) (by decide)).call (by decide) (by decide)).call (by decide)
      (by decide)).call (by decide) (by decide)
  exact ⟨_, rfl, hreaches, serial_of_reaches rfl hreaches⟩

/-- The session that rolls back does not read what it has written any more. -/
theorem not_view_eq_after_rollback :
    ¬ ∀ (start : Engine) (calls : List (SessionId × SessionCall)) (e : Engine),
      start.active = [] → start.Reaches calls e → ∀ s r, s < e.issued →
        (e.call s .rollback).2.view r = e.view r := by
  intro hview
  let start : Engine := ⟨.empty, [], 1⟩
  let writer := ((start.call 0 (.begin .readWrite)).2.call 0 (.put "t" [0x6b] [0x76])).2
  have hreaches : start.Reaches [(0, .begin .readWrite), (0, .put "t" [0x6b] [0x76])] writer :=
    (Reaches.nothing.call (by decide) (by decide)).call (by decide) (by decide)
  have hsame := hview start _ writer rfl hreaches 0 0 (by decide)
  have hread : (writer.view 0).scan "t" .all none .forward 10 = [([0x6b], [0x76])] := by
    decide +kernel
  have hlost : ((writer.call 0 .rollback).2.view 0).scan "t" .all none .forward 10 = [] := by
    decide +kernel
  rw [hsame, hread] at hlost
  cases hlost

end Engine
end OrderedQuery
