import Mathlib.Data.Finset.Card
import OrderedQuery.Proofs.Cursor.Parallel.Progress

/-!
# What a reader hears

The log of a reader is the list of messages it has taken from the channel.  A call of `next`
takes reports up to the next row, or up to the end of the run.  `Hears` lists the ways such a
call can end: with a row, with the reports of all workers, with the report of a failure, or
with the silence of a worker that was ended from within.
-/

namespace OrderedQuery

namespace Message

/-- The row of a message. -/
def row? : Message → Option Row
  | row _ r => some r
  | finished _ | failed .. => none

/-- The message reports the end of a worker. -/
def isReport : Message → Bool
  | row .. => false
  | finished _ | failed .. => true

/-- The message reports a failure. -/
def isFailure : Message → Bool
  | failed .. => true
  | row .. | finished _ => false

end Message

/-- The rows among messages. -/
def rowsIn (log : List Message) : List Row :=
  log.filterMap Message.row?

/-- The rows of one worker among messages. -/
def rowsFrom (i : Nat) (log : List Message) : List Row :=
  rowsIn (sentBy i log)

/-- The workers whose end is reported among messages. -/
def reporters (log : List Message) : List Nat :=
  (log.filter Message.isReport).map Message.worker

namespace ParallelCursor

variable {σ : Type}

/-- The messages that `receive` takes. -/
def heardWith (m : Machine σ) (ctx : Context) : Nat → State σ → World → List Message
  | 0, _, _ => []
  | fuel + 1, s, w =>
      match w.check ctx with
      | (.error _, _) => []
      | (.ok (), w) =>
          match s.run with
          | none => []
          | some r =>
              if r.live = 0 then []
              else
                match r.await m w with
                | (.message (.finished i), r, w) =>
                    .finished i :: heardWith m ctx fuel { s with run := some (r.note i) } w
                | (.message message, _, _) => [message]
                | (.timeout, r, w) => heardWith m ctx fuel { s with run := some r } w
                | _ => []

/-- The messages that a call of `next` takes. -/
def heard (m : Machine σ) (ctx : Context) (s : State σ) (w : World) : List Message :=
  match s.base.checkNext with
  | .error _ => []
  | .ok () => heardWith m ctx (patience s w) s w

/-- The messages taken by `n` calls of `next`, or by as many as return a row and the one after
them. -/
def log (m : Machine σ) (ctx : Context) : Nat → State σ → World → List Message
  | 0, _, _ => []
  | n + 1, s, w =>
      let o := next m ctx s w
      heard m ctx s w ++
        match o.result with
        | .ok (some _) => log m ctx n o.state o.world
        | _ => []

end ParallelCursor

/-! ## Reports -/

@[simp]
theorem rowsIn_append (l l' : List Message) : rowsIn (l ++ l') = rowsIn l ++ rowsIn l' :=
  List.filterMap_append

@[simp]
theorem rowsIn_map_row (i : Nat) (rows : List Row) : rowsIn (rows.map (.row i)) = rows := by
  rw [rowsIn, List.filterMap_map]
  exact List.filterMap_some

theorem rowsIn_map_finished (ends : List Nat) : rowsIn (ends.map .finished) = [] := by
  rw [rowsIn, List.filterMap_map]
  exact List.filterMap_eq_nil_iff.mpr fun _ _ => rfl

theorem reporters_append (l l' : List Message) :
    reporters (l ++ l') = reporters l ++ reporters l' := by
  rw [reporters, List.filter_append, List.map_append]
  rfl

theorem reporters_singleton {message : Message} (h : message.isReport = true) :
    reporters [message] = [message.worker] := by
  rw [reporters, List.filter_cons_of_pos h]
  rfl

theorem mem_reporters_iff {i : Nat} {l : List Message} :
    i ∈ reporters l ↔ ∃ message ∈ l, message.isReport = true ∧ message.worker = i := by
  simp only [reporters, List.mem_map, List.mem_filter, and_assoc]

/-- A list is put together again from parts that share no element. -/
theorem List.perm_flatMap_filter {α : Type} {keeps : Nat → α → Bool} {n : Nat} {l : List α}
    (hsome : ∀ x ∈ l, ∃ i < n, keeps i x)
    (honly : ∀ x ∈ l, ∀ i < n, ∀ j < n, keeps i x → keeps j x → i = j) :
    l.Perm ((List.range n).flatMap fun i => l.filter (keeps i)) := by
  induction n generalizing l with
  | zero =>
      have hnil : l = [] := by
        refine List.eq_nil_iff_forall_not_mem.mpr ?_
        intro x hx
        obtain ⟨i, hi, -⟩ := hsome x hx
        exact Nat.not_lt_zero i hi
      rw [hnil]
      exact List.Perm.refl _
  | succ n ih =>
      -- the last part is set apart from the others
      have hothers : (l.filter fun x => !keeps n x).Perm
          ((List.range n).flatMap fun i => (l.filter fun x => !keeps n x).filter (keeps i)) := by
        refine ih ?_ ?_
        · intro x hx
          obtain ⟨hmem, hnot⟩ := List.mem_filter.mp hx
          obtain ⟨i, hi, hkeeps⟩ := hsome x hmem
          refine ⟨i, Nat.lt_of_le_of_ne (Nat.le_of_lt_succ hi) ?_, hkeeps⟩
          rintro rfl
          rw [hkeeps] at hnot
          cases hnot
        · intro x hx i hi j hj
          exact honly x (List.mem_of_mem_filter hx) i (Nat.lt_succ_of_lt hi) j
            (Nat.lt_succ_of_lt hj)
      have hsame : ∀ i ∈ List.range n,
          (l.filter fun x => !keeps n x).filter (keeps i) = l.filter (keeps i) := by
        intro i hi
        rw [List.filter_filter]
        refine List.filter_congr ?_
        intro x hx
        rw [Bool.and_eq_left_iff_imp]
        intro hkeeps
        rw [Bool.not_eq_true']
        refine Bool.eq_false_iff.mpr fun hlast => ?_
        have hlt := List.mem_range.mp hi
        exact Nat.ne_of_lt hlt
          (honly x hx i (Nat.lt_succ_of_lt hlt) n (Nat.lt_succ_self n) hkeeps hlast)
      rw [List.range_succ, List.flatMap_append, List.flatMap_singleton,
        ← List.flatMap_congr hsame]
      exact (List.filter_append_perm (keeps n) l).symm.trans
        (List.perm_append_comm.trans (hothers.append_right _))

/-- The rows are those of the workers, in some order between different workers. -/
theorem rowsIn_perm_flatMap {log : List Message} {n : Nat}
    (hworkers : ∀ message ∈ log, message.worker < n) :
    (rowsIn log).Perm ((List.range n).flatMap fun i => rowsFrom i log) := by
  have hsenders : log.Perm ((List.range n).flatMap fun i => sentBy i log) := by
    refine List.perm_flatMap_filter ?_ ?_
    · intro message hmem
      exact ⟨message.worker, hworkers message hmem, beq_self_eq_true _⟩
    · intro message _ i _ j _ hi hj
      exact (beq_iff_eq.mp hi).symm.trans (beq_iff_eq.mp hj)
  have hrows := hsenders.filterMap Message.row?
  rwa [List.filterMap_flatMap] at hrows

/-- What can only come last has nothing behind it. -/
theorem List.eq_nil_of_append_eq_concat {α : Type} {l l' front : List α} {last a : α}
    (h : l ++ l' = front ++ [last]) (hmem : a ∈ l) (hnot : a ∉ front) : l' = [] := by
  rcases List.eq_nil_or_concat l' with hnil | ⟨front', last', hlast⟩
  · exact hnil
  · rw [hlast, List.concat_eq_append, ← List.append_assoc] at h
    have hfront : l ++ front' = front := List.append_inj_left' h rfl
    rw [← hfront] at hnot
    exact absurd (List.mem_append_left _ hmem) hnot

theorem Worker.isReport_report (i : Nat) (result : Except QueryError Unit) :
    (Worker.report i result).isReport = true := by
  cases result with
  | ok u => rfl
  | error e => rfl

theorem Worker.worker_report (i : Nat) (result : Except QueryError Unit) :
    (Worker.report i result).worker = i := by
  cases result with
  | ok u => rfl
  | error e => rfl

theorem Worker.report_injective {i : Nat} {result result' : Except QueryError Unit}
    (h : Worker.report i result = Worker.report i result') : result = result' := by
  cases result with
  | ok u =>
      cases result' with
      | ok u' => rfl
      | error e' => cases h
  | error e =>
      cases result' with
      | ok u' => cases h
      | error e' => rw [(Message.failed.inj h).2]

theorem isReport_of_mem_map_row {i : Nat} {rows : List Row} {message : Message}
    (h : message ∈ rows.map (Message.row i)) : message.isReport = false := by
  obtain ⟨row, -, rfl⟩ := List.mem_map.mp h
  rfl

namespace Job

open Run (Continues)

variable {σ : Type} {j : Job σ} {log log' : List Message} {r r' : Run σ} {w w' : World}
  {i : Nat}

/-- The reader has taken `log` and noted the reports in it. -/
structure At (j : Job σ) (log : List Message) (r : Run σ) (w : World) : Prop where
  company : j.Company log r w
  reported : r.reported = (reporters log).reverse
  live : r.live = j.envs.length - (reporters log).length
  workers : r.workers.length = j.envs.length

theorem At.continues (hat : j.At log r w) (hc : j.Company log r' w')
    (hcontinues : Continues r r' w w') : j.At log r' w' :=
  ⟨hc, hcontinues.reported.trans hat.reported, hcontinues.live.trans hat.live,
    hcontinues.workers.trans hat.workers⟩

theorem At.row {row : Row} (hat : j.At log r w)
    (hc : j.Company (log ++ [.row i row]) r' w') (hcontinues : Continues r r' w w') :
    j.At (log ++ [.row i row]) r' w' := by
  have hsame : reporters (log ++ [.row i row]) = reporters log := by
    rw [reporters_append]
    exact List.append_nil _
  refine ⟨hc, ?_, ?_, hcontinues.workers.trans hat.workers⟩
  · rw [hsame]
    exact hcontinues.reported.trans hat.reported
  · rw [hsame]
    exact hcontinues.live.trans hat.live

theorem At.note {message : Message} (hat : j.At log r w) (hreport : message.isReport = true)
    (hc : j.Company (log ++ [message]) r' w') (hcontinues : Continues r r' w w') :
    j.At (log ++ [message]) (r'.note message.worker) w' := by
  have hnew : reporters (log ++ [message]) = reporters log ++ [message.worker] := by
    rw [reporters_append, reporters_singleton hreport]
  refine ⟨hc.note message.worker, ?_, ?_, hcontinues.workers.trans hat.workers⟩
  · rw [hnew, List.reverse_append, Run.note, hcontinues.reported, hat.reported]
    rfl
  · rw [hnew, List.length_append, Run.note, hcontinues.live, hat.live]
    exact Nat.sub_sub ..

/-- Nobody reports twice. -/
theorem Company.reporters_nodup (hc : j.Company log r w) : (reporters log).Nodup := by
  rw [List.nodup_iff_count_le_one]
  intro i
  have hcount : (reporters log).count i =
      ((sentBy i log).filter Message.isReport).length := by
    rw [reporters, List.count, List.countP_map, List.countP_filter, sentBy, List.filter_filter,
      List.countP_eq_length_filter]
    congr 2
    funext message
    exact Bool.and_comm _ _
  rw [hcount]
  rcases Nat.lt_or_ge i r.workers.length with hi | hi
  · obtain ⟨e, k, -, -, context, w', -, -, halone⟩ := hc.sends hi
    have hprefix : (sentBy i log).filter Message.isReport <+:
        (sentBy i (log ++ r.channel.queue)).filter Message.isReport := by
      rw [sentBy_append, List.filter_append]
      exact List.prefix_append _ _
    refine Nat.le_trans hprefix.length_le ?_
    obtain ⟨rows, ⟨-, hsent⟩ | ⟨-, result, hsent⟩⟩ := halone.sent_eq
    · rw [hsent, List.filter_eq_nil_iff.mpr fun message hmem => by
        simp [isReport_of_mem_map_row hmem]]
      exact Nat.zero_le _
    · rw [hsent, List.filter_append, List.filter_eq_nil_iff.mpr fun message hmem => by
        simp [isReport_of_mem_map_row hmem]]
      exact List.length_filter_le _ _
  · obtain ⟨holdings, hc⟩ := hc
    rw [sentBy_eq_nil]
    · exact Nat.zero_le _
    · intro message hmem hworker
      have hless := hc.senders message (List.mem_append_left _ hmem)
      omega

theorem Company.lt_of_mem_reporters (hc : j.Company log r w) (hi : i ∈ reporters log) :
    i < r.workers.length := by
  obtain ⟨holdings, hc⟩ := hc
  obtain ⟨message, hmem, -, rfl⟩ := mem_reporters_iff.mp hi
  exact hc.senders message (List.mem_append_left _ hmem)

/-- The rows received from a worker come first among the rows it could send on its own. -/
theorem Company.mayYield (hc : j.Company log r w) (hi : i < r.workers.length) :
    ∃ e, j.envs[i]? = some e ∧
      j.machine.MayYield j.config j.store e (rowsFrom i log) := by
  obtain ⟨e, k, he, -, hsends⟩ := hc.sends hi
  obtain ⟨context, w', -, -, halone⟩ := id hsends
  have hmore : ∀ {rows : List Row} {tail : List Message},
      sentBy i (log ++ r.channel.queue) = rows.map (.row i) ++ tail → rowsIn tail = [] →
        ∃ more, sentBy i (log ++ r.channel.queue) =
          (rowsFrom i log).map (.row i) ++ more := by
    intro rows tail hsent htail
    have hrows : rowsFrom i log ++ rowsIn (sentBy i r.channel.queue) = rows := by
      rw [rowsFrom, ← rowsIn_append, ← sentBy_append, hsent, rowsIn_append, rowsIn_map_row,
        htail, List.append_nil]
    refine ⟨(rowsIn (sentBy i r.channel.queue)).map (.row i) ++ tail, ?_⟩
    rw [hsent, ← hrows, List.map_append, List.append_assoc]
  obtain ⟨rows, ⟨-, hsent⟩ | ⟨-, result, hsent⟩⟩ := halone.sent_eq
  · obtain ⟨more, hmore⟩ := hmore (hsent.trans (List.append_nil _).symm) rfl
    rw [hmore] at hsends
    exact ⟨e, he, i, k, more, hsends⟩
  · obtain ⟨more, hmore⟩ := hmore hsent (by cases result <;> rfl)
    rw [hmore] at hsends
    exact ⟨e, he, i, k, more, hsends⟩

/-- When nobody is expected to report any more, everybody has reported. -/
theorem At.mem_reporters (hat : j.At log r w) (hlive : r.live = 0) (hi : i < j.envs.length) :
    i ∈ reporters log := by
  have hnodup := hat.company.reporters_nodup
  have hsubset : (reporters log).toFinset ⊆ Finset.range j.envs.length := by
    intro i' hi'
    have hless := hat.company.lt_of_mem_reporters (List.mem_toFinset.mp hi')
    rw [hat.workers] at hless
    exact Finset.mem_range.mpr hless
  have hcard : (Finset.range j.envs.length).card ≤ (reporters log).toFinset.card := by
    rw [Finset.card_range, List.toFinset_card_of_nodup hnodup]
    have hall := hat.live
    omega
  have hall := Finset.eq_of_subset_of_card_le hsubset hcard
  rw [← List.mem_toFinset, hall]
  exact Finset.mem_range.mpr hi

/-- The report of a worker is the last it sends. -/
theorem Company.sends_report (hc : j.Company log r w) {message : Message} (hmem : message ∈ log)
    (hreport : message.isReport = true) :
    ∃ e k result, j.envs[message.worker]? = some e ∧ r.workers[message.worker]? = some k ∧
      k.phase = .ended ∧ message = Worker.report message.worker result ∧
      sentBy message.worker log = (rowsFrom message.worker log).map (.row message.worker) ++
        [Worker.report message.worker result] ∧
      j.machine.Sends j.config j.store e message.worker k (sentBy message.worker log) := by
  have hi := hc.lt_of_mem_reporters (mem_reporters_iff.mpr ⟨message, hmem, hreport, rfl⟩)
  generalize hn : message.worker = i at hi ⊢
  obtain ⟨e, k, he, hk, hsends⟩ := hc.sends hi
  obtain ⟨context, w', -, -, halone⟩ := id hsends
  have hsentBy : message ∈ sentBy i log :=
    List.mem_filter.mpr ⟨hmem, beq_iff_eq.mpr hn⟩
  have hunsent : ∀ rows : List Row, message ∉ rows.map (Message.row i) := by
    intro rows hrow
    rw [isReport_of_mem_map_row hrow] at hreport
    cases hreport
  rw [sentBy_append] at hsends halone
  obtain ⟨rows, ⟨-, hsent⟩ | ⟨hended, result, hsent⟩⟩ := halone.sent_eq
  · -- a worker that has not come to its end has sent rows alone
    have hrow : message ∈ rows.map (Message.row i) := by
      rw [← hsent]
      exact List.mem_append_left _ hsentBy
    exact absurd hrow (hunsent rows)
  · have hnothing : sentBy i r.channel.queue = [] :=
      List.eq_nil_of_append_eq_concat hsent hsentBy (hunsent rows)
    rw [hnothing, List.append_nil] at hsends hsent
    have hrows : rowsFrom i log = rows := by
      rw [rowsFrom, hsent, rowsIn_append, rowsIn_map_row]
      cases result with
      | ok u => exact List.append_nil _
      | error e => exact List.append_nil _
    have hmessage : message = Worker.report i result := by
      rw [hsent] at hsentBy
      exact List.mem_singleton.mp ((List.mem_append.mp hsentBy).resolve_left (hunsent rows))
    refine ⟨e, k, result, he, hk, hended, hmessage, ?_, hsends⟩
    rw [hrows]
    exact hsent

/-- A worker whose report has been received could have ended like that on its own, after the
rows received from it. -/
theorem Company.yields (hc : j.Company log r w) {result : Except QueryError Unit}
    (hmem : Worker.report i result ∈ log) :
    ∃ e, j.envs[i]? = some e ∧
      j.machine.Yields j.config j.store e (rowsFrom i log) result := by
  obtain ⟨e, k, result', he, -, -, hsame, hsent, hsends⟩ :=
    hc.sends_report hmem (Worker.isReport_report i result)
  rw [Worker.worker_report] at he hsame hsent hsends
  obtain rfl : result = result' := Worker.report_injective hsame
  rw [hsent] at hsends
  exact ⟨e, he, i, k, hsends⟩

/-- After the report of a worker, no row of it is received. -/
theorem Company.not_mem_of_row_last {row : Row} (hc : j.Company (log ++ [.row i row]) r w)
    (result : Except QueryError Unit) : Worker.report i result ∉ log ++ [.row i row] := by
  intro hmem
  obtain ⟨e, k, result', -, -, -, -, hsent, -⟩ :=
    hc.sends_report hmem (Worker.isReport_report i result)
  rw [Worker.worker_report, sentBy_append] at hsent
  have hrow : sentBy i [.row i row] = [.row i row] :=
    sentBy_eq_self fun message hmessage => by rw [List.mem_singleton.mp hmessage]; rfl
  rw [hrow] at hsent
  have hlast := (List.append_inj' hsent rfl).2
  cases result' with
  | ok u => cases hlast
  | error e => cases hlast

end Job
end OrderedQuery
