import Mathlib.Logic.Function.Basic
import OrderedQuery.Proofs.Cursor.Parallel.Alone

/-!
# Workers in company

The workers of a run share the world, but each has holdings of its own.  `Company` says that
every worker stands where it could stand on its own, in the world as it would be without the
others, and that all it has sent is on its way or has been received.  Whichever worker takes
a step, and however often the reader lets the schedule move on, this stays so.
-/

namespace OrderedQuery

/-- The messages of one worker. -/
def sentBy (i : Nat) (messages : List Message) : List Message :=
  messages.filter fun message => message.worker == i

theorem sentBy_append (i : Nat) (l l' : List Message) :
    sentBy i (l ++ l') = sentBy i l ++ sentBy i l' :=
  List.filter_append ..

theorem sentBy_eq_self {i : Nat} {l : List Message} (h : ∀ message ∈ l, message.worker = i) :
    sentBy i l = l :=
  List.filter_eq_self.mpr fun message hmem => beq_iff_eq.mpr (h message hmem)

theorem sentBy_eq_nil {i : Nat} {l : List Message} (h : ∀ message ∈ l, message.worker ≠ i) :
    sentBy i l = [] :=
  List.filter_eq_nil_iff.mpr fun message hmem => by simpa using h message hmem

/-- Nothing disturbs those who watch a token. -/
structure World.Steady (token : Token) (w : World) : Prop where
  sound : w.Sound
  silent : w.signals.alarm = none
  token : ∀ f ∈ token.flags, f < w.signals.issued ∧ f ∉ w.signals.raised

namespace Holdings

/-- The holdings together with all that is yet to be handed out. -/
def grow (h : Holdings) (w : World) : Holdings :=
  { h with
    sessions := fun s => h.sessions s || decide (w.engine.issued ≤ s)
    flags := fun f => h.flags f || decide (w.signals.issued ≤ f) }

/-- What is yet to be handed out, for somebody who watches a token. -/
def spare (token : Token) (w : World) : Holdings :=
  ⟨fun s => decide (w.engine.issued ≤ s), fun f => decide (w.signals.issued ≤ f),
    fun f => decide (f ∈ token.flags), false⟩

/-- Nothing is held by both. -/
structure Apart (h h' : Holdings) : Prop where
  sessions : ∀ s, h.sessions s = true → h'.sessions s = false
  flags : ∀ f, h.flags f = true → h'.flags f = false

variable {h h' : Holdings} {w w' : World} {token : Token}

theorem Apart.symm (ha : h.Apart h') : h'.Apart h := by
  refine ⟨?_, ?_⟩
  · intro s hs
    cases hown : h.sessions s with
    | false => rfl
    | true =>
        rw [ha.sessions s hown] at hs
        cases hs
  · intro f hf
    cases hown : h.flags f with
    | false => rfl
    | true =>
        rw [ha.flags f hown] at hf
        cases hf

theorem Apart.mono (ha : h.Apart h') {h'' : Holdings} (hle : h'' ≤ h') : h.Apart h'' := by
  refine ⟨?_, ?_⟩
  · intro s hs
    cases hown : h''.sessions s with
    | false => rfl
    | true => rw [← ha.sessions s hs, hle.1 s hown]
  · intro f hf
    cases hown : h''.flags f with
    | false => rfl
    | true => rw [← ha.flags f hf, hle.2.1 f hown]

/-- What is yet to be handed out is held by nobody. -/
theorem Apart.grow (ha : h.Apart h') (hsessions : ∀ s, h.sessions s = true → s < w.engine.issued)
    (hflags : ∀ f, h.flags f = true → f < w.signals.issued) : h.Apart (h'.grow w) := by
  refine ⟨?_, ?_⟩
  · intro s hs
    simp [Holdings.grow, ha.sessions s hs, hsessions s hs]
  · intro f hf
    simp [Holdings.grow, ha.flags f hf, hflags f hf]

/-- Several parties hold nothing together if this is so without the party `i`, and that one
holds nothing that another one does. -/
theorem apart_update {holdings : Nat → Holdings} {n i : Nat}
    (hothers : ∀ i₁ i₂, i₁ < n → i₂ < n → i₁ ≠ i → i₂ ≠ i → i₁ ≠ i₂ →
      (holdings i₁).Apart (holdings i₂))
    (hnew : ∀ i' < n, i' ≠ i → (holdings i').Apart h) {i₁ i₂ : Nat} (hi₁ : i₁ < n) (hi₂ : i₂ < n)
    (hne : i₁ ≠ i₂) :
    (Function.update holdings i h i₁).Apart (Function.update holdings i h i₂) := by
  by_cases h₁ : i₁ = i
  · subst h₁
    rw [Function.update_self, Function.update_of_ne hne.symm]
    exact (hnew i₂ hi₂ hne.symm).symm
  · rw [Function.update_of_ne h₁]
    by_cases h₂ : i₂ = i
    · subst h₂
      rw [Function.update_self]
      exact hnew i₁ hi₁ h₁
    · rw [Function.update_of_ne h₂]
      exact hothers i₁ i₂ hi₁ hi₂ h₁ h₂ hne

theorem le_upto_grow (hsessions : ∀ s, h.sessions s = true → s < w.engine.issued)
    (hflags : ∀ f, h.flags f = true → f < w.signals.issued) : h ≤ (h.grow w).upto w := by
  refine ⟨?_, ?_, fun _ hf => hf, fun he => he⟩
  · intro s hs
    simp [upto, grow, hs, hsessions s hs]
  · intro f hf
    simp [upto, grow, hf, hflags f hf]

theorem only_grow (hw : w.Sound) : w.only (h.grow w) = w.only h := by
  have hactive : w.engine.active.filter (fun a => (h.grow w).sessions a.1) =
      w.engine.active.filter fun a => h.sessions a.1 := by
    refine List.filter_congr ?_
    intro a ha
    simp [grow, Nat.not_le.mpr (hw.sessions a ha)]
  have hraised : w.signals.raised.filter (h.grow w).flags = w.signals.raised.filter h.flags := by
    refine List.filter_congr ?_
    intro f hf
    simp [grow, Nat.not_le.mpr (hw.flags f hf)]
  rw [World.only, World.only, hactive, hraised]

theorem only_upto (hw : w.Sound) : w.only (h.upto w) = w.only h := by
  have hactive : w.engine.active.filter (fun a => (h.upto w).sessions a.1) =
      w.engine.active.filter fun a => h.sessions a.1 := by
    refine List.filter_congr ?_
    intro a ha
    simp [upto, hw.sessions a ha]
  have hraised : w.signals.raised.filter (h.upto w).flags = w.signals.raised.filter h.flags := by
    refine List.filter_congr ?_
    intro f hf
    simp [upto, hw.flags f hf]
  rw [World.only, World.only, hactive, hraised]

/-- Transactions of others are what they were. -/
theorem Keeps.mem_active_iff (hk : h.Keeps w w') {a : SessionId × Transaction}
    (ha : h.sessions a.1 = false) : a ∈ w'.engine.active ↔ a ∈ w.engine.active := by
  have hmem : ∀ l : List (SessionId × Transaction),
      a ∈ l.filter (fun a => !h.sessions a.1) ↔ a ∈ l := by
    intro l
    rw [List.mem_filter, ha]
    simp
  rw [← hmem w'.engine.active, hk.active, hmem]

/-- Flags of others are raised if they were. -/
theorem Keeps.mem_raised_iff (hk : h.Keeps w w') {f : Nat} (hf : h.flags f = false) :
    f ∈ w'.signals.raised ↔ f ∈ w.signals.raised := by
  have hmem : ∀ l : List Nat, f ∈ l.filter (fun f => !h.flags f) ↔ f ∈ l := by
    intro l
    rw [List.mem_filter, hf]
    simp
  rw [← hmem w'.signals.raised, hk.raised, hmem]

/-- What one party does is a rest for another one. -/
theorem Keeps.resumes (hk : h.Keeps w w') (ha : h'.Apart h)
    (hcommitted : w'.engine.committed = w.engine.committed) :
    (w.only h').Resumes (w'.only h') where
  committed := hcommitted
  active := by
    have hfilter : ∀ l : List (SessionId × Transaction),
        l.filter (fun a => h'.sessions a.1) =
          (l.filter fun a => !h.sessions a.1).filter fun a => h'.sessions a.1 := by
      intro l
      rw [List.filter_filter]
      refine List.filter_congr ?_
      intro a _
      cases hown : h'.sessions a.1 with
      | false => rfl
      | true => simp [ha.sessions a.1 hown]
    rw [World.only, World.only, hfilter w'.engine.active, hk.active, ← hfilter]
  raised := by
    have hfilter : ∀ l : List Nat,
        l.filter h'.flags = (l.filter fun f => !h.flags f).filter h'.flags := by
      intro l
      rw [List.filter_filter]
      refine List.filter_congr ?_
      intro f _
      cases hown : h'.flags f with
      | false => rfl
      | true => simp [ha.flags f hown]
    rw [World.only, World.only, hfilter w'.signals.raised, hk.raised, ← hfilter]
  silent := hk.fits.silent
  sessions := hk.sessions
  flags := hk.flags

end Holdings

/-- Nobody but a party that leaves the token alone has done anything. -/
theorem World.Steady.keeps {token : Token} {h : Holdings} {w w' : World}
    (hw : w.Steady token) (hk : h.Keeps w w') (ht : ∀ f ∈ token.flags, h.flags f = false) :
    w'.Steady token where
  sound := hk.fits.sound
  silent := hk.fits.silent
  token f hf := by
    obtain ⟨hissued, hraised⟩ := hw.token f hf
    refine ⟨Nat.lt_of_lt_of_le hissued hk.flags, ?_⟩
    rwa [hk.mem_raised_iff (ht f hf)]

theorem World.Steady.spare_fits {token : Token} {w : World} (hw : w.Steady token) :
    (Holdings.spare token w).Fits w where
  sound := hw.sound
  silent := hw.silent
  sessions s hs := decide_eq_true hs
  flags f hf := decide_eq_true hf
  shared f hf := by
    obtain ⟨hissued, hraised⟩ := hw.token f (of_decide_eq_true hf)
    exact ⟨decide_eq_false (Nat.not_le.mpr hissued), hraised⟩
  exclusive he := nomatch he

/-- What is settled before a run starts: the cursor that all workers run, the store they see,
their settings, the token above theirs, and the environment of each. -/
structure Job (σ : Type) where
  machine : Machine σ
  Owns : Ownership σ
  store : Store
  config : Config
  token : Token
  envs : List Env

namespace Job

variable {σ : Type}

/-- Worker `i` with its holdings: it has sent `sent`, and it stands where it could stand on its
own. -/
structure Attends (j : Job σ) (i : Nat) (e : Env) (h : Holdings) (k : Worker σ)
    (sent : List Message) (w : World) : Prop where
  sessions : ∀ s, h.sessions s = true → s < w.engine.issued
  flags : ∀ f, h.flags f = true → f < w.signals.issued
  shared : ∀ f, h.shared f = true → f ∈ j.token.flags
  unshared : ∀ f ∈ j.token.flags, h.flags f = false
  exclusive : h.exclusive = true → j.config.mode = .readWrite ∧
    ∀ a ∈ w.engine.active, h.sessions a.1 = false → a.2.mode = .readOnly
  owned : k.Owned j.Owns h
  config : k.context.config = j.config
  token : k.context.token = j.token
  still : h.Still j.store w
  alone : Worker.Alone j.machine j.store i k.context e k sent (w.only h)

variable {j : Job σ} {i : Nat} {e : Env} {h h' : Holdings} {k : Worker σ}
  {sent : List Message} {w w' : World}

theorem Attends.grow_fits (ha : j.Attends i e h k sent w) (hw : w.Steady j.token) :
    (h.grow w).Fits w where
  sound := hw.sound
  silent := hw.silent
  sessions s hs := by simp [Holdings.grow, hs]
  flags f hf := by simp [Holdings.grow, hf]
  shared f hf := by
    have htoken := ha.shared f hf
    obtain ⟨hissued, hraised⟩ := hw.token f htoken
    exact ⟨by simp [Holdings.grow, ha.unshared f htoken, hissued], hraised⟩
  exclusive he a hmem hother := by
    have hother' : h.sessions a.1 = false := (Bool.or_eq_false_iff.mp hother).1
    exact (ha.exclusive he).2 a hmem hother'

theorem Attends.grow_unshared (ha : j.Attends i e h k sent w) (hw : w.Steady j.token) :
    ∀ f ∈ j.token.flags, (h.grow w).flags f = false := by
  intro f hf
  simp [Holdings.grow, ha.unshared f hf, (hw.token f hf).1]

/-- A worker's own step takes it on as it would on its own. -/
theorem Attends.advance (hm : j.machine.Local j.Owns) (ha : j.Attends i e h k sent w)
    (hw : w.Steady j.token) {k' : Worker σ} {messages : List Message}
    (hstep : k.advance j.machine i w = (k', messages, w')) :
    (h.grow w).Keeps w w' ∧ w'.engine.committed = w.engine.committed ∧
      j.Attends i e ((h.grow w).upto w') k' (sent ++ messages) w' := by
  have hle := Holdings.le_upto_grow ha.sessions ha.flags
  obtain ⟨honly, hkeeps, howned⟩ :=
    Worker.advance_within (i := i) hm (ha.grow_fits hw) (ha.owned.mono hm hle)
  rw [hstep] at honly hkeeps howned
  have hkeeps' : (h.grow w).Keeps w w' := hkeeps
  have hsound := hkeeps'.fits.sound
  have hstill : (h.grow w).Still j.store w := by
    refine ⟨ha.still.committed, ?_⟩
    intro a hmem hown
    have hnew : ¬ w.engine.issued ≤ a.1 := Nat.not_le.mpr (hw.sound.sessions a hmem)
    simp only [Holdings.grow, hnew, decide_false, Bool.or_false] at hown
    exact ha.still.active a hmem hown
  have hstill' := hkeeps'.still j.store hstill
  have halone : Worker.Alone j.machine j.store i k.context e k' (sent ++ messages)
      (w'.only ((h.grow w).upto w')) := by
    have hnext := ha.alone.step
    rw [← Holdings.only_grow hw.sound, honly] at hnext
    rw [Holdings.only_upto hsound]
    exact hnext
  have hcontext : k'.context = k.context := halone.context_eq
  refine ⟨hkeeps', hstill'.committed.trans ha.still.committed.symm, ?_, ?_, ha.shared, ?_, ?_,
    howned, ?_, ?_, ?_, ?_⟩
  · intro s hs
    exact of_decide_eq_true (Bool.and_eq_true_iff.mp hs).2
  · intro f hf
    exact of_decide_eq_true (Bool.and_eq_true_iff.mp hf).2
  · intro f hf
    exact Bool.and_eq_false_iff.mpr (.inl (ha.grow_unshared hw f hf))
  · intro he
    refine ⟨(ha.exclusive he).1, ?_⟩
    intro a hmem hother
    have hissued := decide_eq_true (hsound.sessions a hmem)
    simp only [Holdings.upto, hissued, Bool.and_true] at hother
    exact hkeeps'.fits.exclusive he a hmem hother
  · rw [hcontext]
    exact ha.config
  · rw [hcontext]
    exact ha.token
  · refine ⟨hstill'.committed, ?_⟩
    intro a hmem hown
    exact hstill'.active a hmem (Bool.and_eq_true_iff.mp hown).1
  · rw [hcontext]
    exact halone

/-- Whatever another party does, a worker stands where it stood. -/
theorem Attends.keeps (ha : j.Attends i e h k sent w) (hk : h'.Keeps w w') (hapart : h.Apart h')
    (hcommitted : w'.engine.committed = w.engine.committed)
    (hwriters : j.config.mode = .readWrite → w'.engine.active = w.engine.active) :
    j.Attends i e h k sent w' where
  sessions s hs := Nat.lt_of_lt_of_le (ha.sessions s hs) hk.sessions
  flags f hf := Nat.lt_of_lt_of_le (ha.flags f hf) hk.flags
  shared := ha.shared
  unshared := ha.unshared
  exclusive he := by
    obtain ⟨hmode, hreads⟩ := ha.exclusive he
    rw [hwriters hmode]
    exact ⟨hmode, hreads⟩
  owned := ha.owned
  config := ha.config
  token := ha.token
  still := by
    refine ⟨hcommitted.trans ha.still.committed, ?_⟩
    intro a hmem hown
    exact ha.still.active a ((hk.mem_active_iff (hapart.sessions a.1 hown)).mp hmem) hown
  alone := ha.alone.wait (hk.resumes hapart hcommitted)

/-- The workers of a run stand where they could stand on their own, each with its holdings;
`log` is what has been received. -/
structure CompanyOf (j : Job σ) (holdings : Nat → Holdings) (log : List Message) (r : Run σ)
    (w : World) : Prop where
  steady : w.Steady j.token
  store : w.engine.committed = j.store
  token : r.token = j.token
  reader : r.channel.hasReader = true
  room : 0 < r.channel.capacity
  single : j.config.mode = .readWrite → r.workers.length ≤ 1
  apart : ∀ i i', i < r.workers.length → i' < r.workers.length → i ≠ i' →
    (holdings i).Apart (holdings i')
  attends : ∀ i k, r.workers[i]? = some k → ∃ e, j.envs[i]? = some e ∧
    j.Attends i e (holdings i) k (sentBy i (log ++ r.channel.queue)) w
  senders : ∀ message ∈ log ++ r.channel.queue, message.worker < r.workers.length

/-- The workers of a run stand where they could stand on their own. -/
def Company (j : Job σ) (log : List Message) (r : Run σ) (w : World) : Prop :=
  ∃ holdings, j.CompanyOf holdings log r w

variable {holdings : Nat → Holdings} {log : List Message} {r : Run σ}

theorem CompanyOf.apart_grow (hc : j.CompanyOf holdings log r w) {i' : Nat}
    (hi : i < r.workers.length) (hi' : i' < r.workers.length) (hne : i' ≠ i) :
    (holdings i').Apart ((holdings i).grow w) := by
  obtain ⟨e, -, ha⟩ := hc.attends i' _ (List.getElem?_eq_getElem hi')
  exact (hc.apart i' i hi' hi hne).grow ha.sessions ha.flags

/-- What a worker has sent, it could have sent on its own. -/
theorem Company.sends (hc : j.Company log r w) (hi : i < r.workers.length) :
    ∃ e k, j.envs[i]? = some e ∧ r.workers[i]? = some k ∧
      j.machine.Sends j.config j.store e i k (sentBy i (log ++ r.channel.queue)) := by
  obtain ⟨holdings, hc⟩ := hc
  have hk := List.getElem?_eq_getElem hi
  obtain ⟨e, he, ha⟩ := hc.attends i _ hk
  refine ⟨e, _, he, hk, _, _, ha.config, ?_, ha.alone⟩
  rw [ha.token]
  refine List.any_eq_false.mpr ?_
  intro f hf hraised
  have hleft := List.mem_filter.mp (of_decide_eq_true hraised)
  exact (hc.steady.token f hf).2 hleft.1

/-- One worker takes a step. -/
theorem CompanyOf.advance (hm : j.machine.Local j.Owns) (hc : j.CompanyOf holdings log r w)
    (hk : r.workers[i]? = some k) {k' : Worker σ} {messages : List Message}
    (hstep : k.advance j.machine i w = (k', messages, w')) :
    w'.schedule.length ≤ w.schedule.length ∧
      j.CompanyOf (Function.update holdings i (((holdings i).grow w).upto w')) log
        { r with
          workers := r.workers.set i k'
          channel := { r.channel with queue := r.channel.queue ++ messages } } w' := by
  have hi : i < r.workers.length := (List.getElem?_eq_some_iff.mp hk).1
  obtain ⟨e, he, ha⟩ := hc.attends i k hk
  obtain ⟨hkeeps, hcommitted, ha'⟩ := ha.advance hm hc.steady hstep
  have hsender : ∀ message ∈ messages, message.worker = i := by
    have hmoves := Worker.advance_moves j.machine i k w
    rw [hstep] at hmoves
    intro message hmem
    exact hmoves.worker_eq message hmem
  refine ⟨hkeeps.schedule, hc.steady.keeps hkeeps (ha.grow_unshared hc.steady),
    hcommitted.trans hc.store, hc.token, hc.reader, hc.room, ?_, ?_, ?_, ?_⟩
  · intro hmode
    rw [List.length_set]
    exact hc.single hmode
  · rw [List.length_set]
    intro i₁ i₂
    refine Holdings.apart_update (fun i₁ i₂ hi₁ hi₂ _ _ => hc.apart i₁ i₂ hi₁ hi₂) ?_
    intro i' hi' hne
    exact (hc.apart_grow hi hi' hne).mono (Holdings.upto_le _ _)
  · intro i₁ k₁ hk₁
    by_cases h₁ : i₁ = i
    · subst h₁
      rw [List.getElem?_set_self hi] at hk₁
      obtain rfl := Option.some.inj hk₁
      refine ⟨e, he, ?_⟩
      rw [Function.update_self, ← List.append_assoc, sentBy_append, sentBy_eq_self hsender]
      exact ha'
    · rw [List.getElem?_set_ne (fun h => h₁ h.symm)] at hk₁
      have hi₁ : i₁ < r.workers.length := (List.getElem?_eq_some_iff.mp hk₁).1
      obtain ⟨e₁, he₁, ha₁⟩ := hc.attends i₁ k₁ hk₁
      refine ⟨e₁, he₁, ?_⟩
      rw [Function.update_of_ne h₁, ← List.append_assoc, sentBy_append,
        sentBy_eq_nil (fun message hmem => (hsender message hmem).trans_ne fun h => h₁ h.symm),
        List.append_nil]
      refine ha₁.keeps hkeeps (hc.apart_grow hi hi₁ h₁) hcommitted ?_
      -- a worker that writes is the only one
      intro hmode
      have hsingle := hc.single hmode
      exact absurd (show i₁ = i by omega) h₁
  · intro message hmem
    rw [List.length_set]
    rw [← List.append_assoc] at hmem
    rcases List.mem_append.mp hmem with hold | hnew
    · exact hc.senders message hold
    · rw [hsender message hnew]
      exact hi

/-- What the reader does itself concerns no worker. -/
theorem CompanyOf.rests (hc : j.CompanyOf holdings log r w)
    (hk : (Holdings.spare j.token w).Keeps w w')
    (hactive : w'.engine.active = w.engine.active)
    (hcommitted : w'.engine.committed = w.engine.committed) :
    j.CompanyOf holdings log r w' := by
  have hunshared : ∀ f ∈ j.token.flags, (Holdings.spare j.token w).flags f = false := by
    intro f hf
    exact decide_eq_false (Nat.not_le.mpr (hc.steady.token f hf).1)
  refine ⟨hc.steady.keeps hk hunshared, hcommitted.trans hc.store, hc.token, hc.reader, hc.room,
    hc.single, hc.apart, ?_, hc.senders⟩
  intro i k hi
  obtain ⟨e, he, ha⟩ := hc.attends i k hi
  have hapart : (holdings i).Apart (Holdings.spare j.token w) := by
    refine ⟨?_, ?_⟩
    · intro s hs
      exact decide_eq_false (Nat.not_le.mpr (ha.sessions s hs))
    · intro f hf
      exact decide_eq_false (Nat.not_le.mpr (ha.flags f hf))
  exact ⟨e, he, ha.keeps hk hapart hcommitted fun _ => hactive⟩

/-- Nobody works yet. -/
theorem company_start (hw : w.Steady j.token) (hstore : w.engine.committed = j.store)
    (capacity count : Nat) : j.Company [] (Run.start j.token capacity count) w :=
  ⟨fun _ => .spare j.token w, hw, hstore, rfl, rfl, Nat.le_max_right _ _, fun _ => Nat.zero_le _,
    fun _ _ hi => (nomatch hi), fun _ _ hk => (nomatch hk), fun _ hmem => (nomatch hmem)⟩

/-- The holdings of a worker that has just been started. -/
def ownHoldings (j : Job σ) (session : SessionId) : Holdings :=
  ⟨fun s => s == session, fun _ => false, fun f => decide (f ∈ j.token.flags),
    decide (j.config.mode = .readWrite)⟩

/-- Nobody has held a session that is handed out only now. -/
theorem Attends.apart_ownHoldings (ha : j.Attends i e h k sent w) :
    h.Apart (j.ownHoldings w.engine.issued) where
  sessions s hs := beq_false_of_ne (Nat.ne_of_lt (ha.sessions s hs))
  flags _ _ := rfl

/-- A worker that starts in a session of which nothing is left, while nobody else writes if it
does. -/
theorem attends_start (hm : j.machine.Local j.Owns) (hw : w.Steady j.token)
    (hstore : w.engine.committed = j.store) {session : SessionId}
    (hissued : session < w.engine.issued) (hunused : ∀ a ∈ w.engine.active, a.1 ≠ session)
    (hreads : j.config.mode = .readWrite → ∀ a ∈ w.engine.active, a.2.mode = .readOnly) :
    j.Attends i e (j.ownHoldings session) (.start j.machine ⟨j.config, session, j.token⟩ e) []
      w where
  sessions s hs := by
    rw [beq_iff_eq.mp hs]
    exact hissued
  flags _ hf := nomatch hf
  shared _ hf := of_decide_eq_true hf
  unshared _ _ := rfl
  exclusive he := by
    have hmode : j.config.mode = .readWrite := of_decide_eq_true he
    exact ⟨hmode, fun a hmem _ => hreads hmode a hmem⟩
  owned := by
    refine ⟨⟨beq_self_eq_true _, fun f hf => .inr (decide_eq_true hf), ?_⟩, hm.fresh _ _⟩
    cases hmode : j.config.mode with
    | readOnly => exact .inl hmode
    | readWrite => exact .inr (decide_eq_true hmode)
  config := rfl
  token := rfl
  still := ⟨hstore, fun a hmem hown => absurd (beq_iff_eq.mp hown) (hunused a hmem)⟩
  alone := by
    refine .start ⟨hstore, ?_, ?_, hw.silent, hissued, fun f hf => (hw.token f hf).1⟩
    · refine List.filter_eq_nil_iff.mpr ?_
      intro a hmem hown
      exact hunused a hmem (beq_iff_eq.mp hown)
    · exact List.filter_eq_nil_iff.mpr fun _ _ hf => nomatch hf

/-- A worker joins the others. -/
theorem CompanyOf.join (hc : j.CompanyOf holdings log r w)
    (he : j.envs[r.workers.length]? = some e) (ha : j.Attends r.workers.length e h k [] w)
    (hapart : ∀ i < r.workers.length, (holdings i).Apart h)
    (hsingle : j.config.mode = .readWrite → r.workers = []) :
    j.CompanyOf (Function.update holdings r.workers.length h) log
      { r with workers := r.workers ++ [k] } w := by
  refine ⟨hc.steady, hc.store, hc.token, hc.reader, hc.room, ?_, ?_, ?_, ?_⟩
  · intro hmode
    rw [hsingle hmode]
    exact Nat.le_refl 1
  · simp only [List.length_append, List.length_singleton]
    intro i₁ i₂
    refine Holdings.apart_update ?_ ?_
    · intro i₁ i₂ hi₁ hi₂ h₁ h₂
      exact hc.apart i₁ i₂ (Nat.lt_of_le_of_ne (Nat.le_of_lt_succ hi₁) h₁)
        (Nat.lt_of_le_of_ne (Nat.le_of_lt_succ hi₂) h₂)
    · intro i' hi' hne
      exact hapart i' (Nat.lt_of_le_of_ne (Nat.le_of_lt_succ hi') hne)
  · intro i k' hk
    rcases Nat.lt_trichotomy i r.workers.length with hi | rfl | hi
    · rw [List.getElem?_append_left hi] at hk
      rw [Function.update_of_ne (Nat.ne_of_lt hi)]
      exact hc.attends i k' hk
    · rw [List.getElem?_concat_length] at hk
      obtain rfl := Option.some.inj hk
      refine ⟨e, he, ?_⟩
      rw [Function.update_self, sentBy_eq_nil]
      · exact ha
      · intro message hmem
        exact Nat.ne_of_lt (hc.senders message hmem)
    · have hbeyond : (r.workers ++ [k]).length ≤ i := by
        rw [List.length_append]
        exact hi
      rw [List.getElem?_eq_none hbeyond] at hk
      cases hk
  · intro message hmem
    rw [List.length_append]
    exact Nat.lt_add_right 1 (hc.senders message hmem)

/-- The reader starts another worker, in a session of its own. -/
theorem Company.hire (hm : j.machine.Local j.Owns) (hc : j.Company log r w)
    (he : j.envs[r.workers.length]? = some e)
    (hwriters : j.config.mode = .readWrite → r.workers = [] ∧ w.engine.hasWriter = false) :
    j.Company log
      { r with workers := r.workers ++
        [Worker.start j.machine ⟨j.config, w.engine.issued, j.token⟩ e] }
      (World.recordStarted { w with engine := w.engine.derive.2 }) := by
  obtain ⟨holdings, hc⟩ := hc
  have hderive := hc.steady.spare_fits.derive
  have hcount : (Holdings.spare j.token w).Keeps w
      (World.recordStarted { w with engine := w.engine.derive.2 }) :=
    hderive.trans (hderive.fits.keeps_of_eq rfl rfl (Nat.le_refl _))
  have hc' := hc.rests hcount rfl rfl
  have hjoined := attends_start (i := r.workers.length) (e := e) hm hc'.steady hc'.store
    (Nat.lt_succ_self w.engine.issued)
    (fun a hmem => Nat.ne_of_lt (hc.steady.sound.sessions a hmem))
    (fun hmode => Engine.hasWriter_eq_false_iff.mp (hwriters hmode).2)
  refine ⟨_, hc'.join he hjoined ?_ fun hmode => (hwriters hmode).1⟩
  intro i hi
  obtain ⟨e, -, ha⟩ := hc.attends i _ (List.getElem?_eq_getElem hi)
  exact ha.apart_ownHoldings

/-- The reader takes a message. -/
theorem Company.receive {message : Message} {queue : List Message} (hc : j.Company log r w)
    (hqueue : r.channel.queue = message :: queue) :
    j.Company (log ++ [message]) { r with channel := { r.channel with queue } } w := by
  obtain ⟨holdings, hc⟩ := hc
  have hsame : log ++ r.channel.queue = (log ++ [message]) ++ queue := by
    rw [hqueue, List.append_assoc, List.singleton_append]
  refine ⟨holdings, hc.steady, hc.store, hc.token, hc.reader, hc.room, hc.single, hc.apart, ?_, ?_⟩
  · intro i k hk
    obtain ⟨e, he, ha⟩ := hc.attends i k hk
    rw [hsame] at ha
    exact ⟨e, he, ha⟩
  · intro message' hmem
    rw [← hsame] at hmem
    exact hc.senders message' hmem

/-- The reader notes the report of a worker. -/
theorem Company.note (hc : j.Company log r w) (i : Nat) : j.Company log (r.note i) w := by
  obtain ⟨holdings, hc⟩ := hc
  exact ⟨holdings, hc.steady, hc.store, hc.token, hc.reader, hc.room, hc.single, hc.apart,
    hc.attends, hc.senders⟩

/-- The schedule moves on. -/
theorem Company.draw (hc : j.Company log r w) : j.Company log r w.draw.2 := by
  obtain ⟨holdings, hc⟩ := hc
  have hkeeps := hc.steady.spare_fits.draw.keeps
  refine ⟨holdings, hc.rests hkeeps ?_ ?_⟩
  · unfold World.draw
    split <;> rfl
  · unfold World.draw
    split <;> rfl

/-- The system is asked for another thread. -/
theorem Company.spawn (hc : j.Company log r w) : j.Company log r w.spawn.2 := by
  obtain ⟨holdings, hc⟩ := hc
  have hkeeps := hc.steady.spare_fits.spawn.keeps
  exact ⟨holdings, hc.rests hkeeps (congrArg Engine.active w.spawn_engine)
    (congrArg Engine.committed w.spawn_engine)⟩

end Job
end OrderedQuery
