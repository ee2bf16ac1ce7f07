import OrderedQuery.Proofs.Cursor.Parallel.Draining

/-!
# What the end of a run tells

A drained run ends properly if and only if every worker has reported success.  An error is
that of the first report of a failure, and the worker that reports it would have failed on
its own as well.  Whatever the end, no row comes after it.
-/

namespace OrderedQuery

/-- States that calls of `next` lead to, in whatever contexts and worlds they are made. -/
inductive Machine.Later {σ : Type} (m : Machine σ) (s : σ) : σ → Prop
  | now : Later m s s
  | next {s' : σ} (h : Later m s s') (ctx : Context) (w : World) :
      Later m s (m.next ctx s' w).state

namespace ParallelCursor

variable {σ : Type} {m : Machine σ} {s s' : State σ}

/-- Without a run there is no row, and asking for one starts none. -/
theorem next_of_run_eq_none (hrun : s.run = none) (ctx : Context) (w : World) :
    (∀ row, (next m ctx s w).result ≠ .ok (some row)) ∧ (next m ctx s w).state.run = none := by
  obtain ⟨base, source, run⟩ := s
  obtain rfl : run = none := hrun
  rw [next]
  cases base.checkNext with
  | error e =>
      refine ⟨fun row hrow => ?_, rfl⟩
      cases hrow
  | ok u =>
      dsimp only [patience]
      rw [receive]
      rcases w.check ctx with ⟨e | u, w'⟩
      · refine ⟨fun row hrow => ?_, rfl⟩
        cases hrow
      · refine ⟨fun row hrow => ?_, rfl⟩
        cases hrow

theorem later_run_eq_none {p : Partitioning} (hrun : s.run = none)
    (hlater : (machine m p).Later s s') : s'.run = none := by
  induction hlater with
  | now => exact hrun
  | next h ctx w ih => exact (next_of_run_eq_none ih ctx w).2

end ParallelCursor

namespace Job

variable {σ : Type} {j : Job σ} {log : List Message} {r : Run σ} {w : World} {n : Nat}
  {rows : List Row} {o : Outcome (ParallelCursor.State σ) Unit}

/-- A worker reports one end. -/
theorem Company.report_unique (hc : j.Company log r w) {i : Nat}
    {result result' : Except QueryError Unit} (hmem : Worker.report i result ∈ log)
    (hmem' : Worker.report i result' ∈ log) : result = result' := by
  obtain ⟨e, k, last, -, -, -, hsame, hsent, -⟩ :=
    hc.sends_report hmem (Worker.isReport_report i result)
  rw [Worker.worker_report] at hsame hsent
  obtain rfl : result = last := Worker.report_injective hsame
  have hsentBy : Worker.report i result' ∈ sentBy i log :=
    List.mem_filter.mpr ⟨hmem', beq_iff_eq.mpr (Worker.worker_report i result')⟩
  rw [hsent] at hsentBy
  rcases List.mem_append.mp hsentBy with hrow | hlast
  · have hreport := Worker.isReport_report i result'
    rw [isReport_of_mem_map_row hrow] at hreport
    cases hreport
  · exact (Worker.report_injective (List.mem_singleton.mp hlast)).symm

/-- If reports are missing, so is that of the first silent worker. -/
theorem At.firstSilent_spec (hat : j.At log r w) (hlive : r.live ≠ 0) :
    r.firstSilent < j.envs.length ∧ r.firstSilent ∉ reporters log := by
  have hsome : ∃ i ∈ List.range r.workers.length, i ∉ r.reported := by
    by_contra hnone
    have hsubset : List.range r.workers.length ⊆ reporters log := by
      intro i hi
      by_contra hsilent
      refine hnone ⟨i, hi, ?_⟩
      rwa [hat.reported, List.mem_reverse]
    have hlength := (List.nodup_range.subperm hsubset).length_le
    rw [List.length_range, hat.workers] at hlength
    rw [hat.live] at hlive
    omega
  obtain ⟨i, hi, hsilent⟩ := hsome
  unfold Run.firstSilent
  cases hfind : (List.range r.workers.length).find? fun i => decide (i ∉ r.reported) with
  | none =>
      have hreported := List.find?_eq_none.mp hfind i hi
      exact absurd (decide_eq_true hsilent) hreported
  | some first =>
      have hmem := List.mem_range.mp (List.mem_of_find?_eq_some hfind)
      have hfirst := List.find?_some hfind
      rw [decide_eq_true_eq, hat.reported, List.mem_reverse] at hfirst
      rw [hat.workers] at hmem
      exact ⟨hmem, hfirst⟩

/-- When everybody has come to an end and nothing is on its way, those who have not reported
were ended from within. -/
theorem At.panics (hat : j.At log r w) (hdone : r.allDone = true)
    (hqueue : r.channel.queue = []) {i : Nat} (hi : i < j.envs.length)
    (hsilent : i ∉ reporters log) :
    ∃ e, j.envs[i]? = some e ∧
      j.machine.Panics j.config j.store e (rowsFrom i log) := by
  rw [← hat.workers] at hi
  obtain ⟨e, k, he, hk, hsends⟩ := hat.company.sends hi
  rw [hqueue, List.append_nil] at hsends
  obtain ⟨context, w', -, -, halone⟩ := id hsends
  have hend := List.all_eq_true.mp hdone k (List.mem_of_getElem? hk)
  obtain ⟨rows, ⟨hphase, hsent⟩ | ⟨-, result, hsent⟩⟩ := halone.sent_eq
  · have haborted : k.phase = .aborted := by
      rw [Worker.isDone] at hend
      split at hend
      · contradiction
      · assumption
      · cases hend
    have hrows : rowsFrom i log = rows := by
      rw [rowsFrom, hsent, rowsIn_map_row]
    rw [hsent, ← hrows] at hsends
    exact ⟨e, he, i, k, haborted, hsends⟩
  · have hreport : Worker.report i result ∈ log := by
      have hlast : Worker.report i result ∈ sentBy i log := by
        rw [hsent]
        exact List.mem_append_right _ (List.mem_singleton_self _)
      exact (List.mem_filter.mp hlast).1
    exact absurd (mem_reporters_iff.mpr
      ⟨_, hreport, Worker.isReport_report i result, Worker.worker_report i result⟩) hsilent

/-- All rows and reports of a drained run are those of workers in company. -/
theorem Drained.at (h : j.Drained n [] log (rows, o)) : ∃ r w, j.At log r w := by
  cases h with
  | running hat hunfailed hrows hlast => exact ⟨_, _, hat⟩
  | ended hends hrows =>
      cases hends with
      | done hrun hat hunfailed hlive => exact ⟨_, _, hat⟩
      | failed hrun hat hlog hunfailed => exact ⟨_, _, hat⟩
      | lost hrun hat hunfailed hlive hdone hqueue => exact ⟨_, _, hat⟩

/-- The rows that have been handed out are those of the workers. -/
theorem Drained.rows_perm (h : j.Drained n [] log (rows, o)) :
    (rowsIn log).Perm ((List.range j.envs.length).flatMap fun i => rowsFrom i log) := by
  obtain ⟨r, w, hat⟩ := h.at
  obtain ⟨holdings, hc⟩ := hat.company
  rw [← hat.workers]
  refine rowsIn_perm_flatMap ?_
  intro message hmem
  exact hc.senders message (List.mem_append_left _ hmem)

theorem Drained.mayYield (h : j.Drained n [] log (rows, o)) {i : Nat} {e : Env}
    (he : j.envs[i]? = some e) :
    j.machine.MayYield j.config j.store e (rowsFrom i log) := by
  obtain ⟨r, w, hat⟩ := h.at
  have hi : i < r.workers.length := by
    rw [hat.workers]
    exact (List.getElem?_eq_some_iff.mp he).1
  obtain ⟨e', he', hmay⟩ := hat.company.mayYield hi
  obtain rfl := Option.some.inj (he.symm.trans he')
  exact hmay

/-- A drained run ends properly if and only if every worker has reported success. -/
theorem Drained.result_eq_ok_iff (h : j.Drained n [] log (rows, o)) (henvs : j.envs ≠ []) :
    o.result = .ok () ↔ ∀ i < j.envs.length, Message.finished i ∈ log := by
  cases h with
  | running hat hunfailed hrows hlast =>
      rw [List.nil_append] at hat
      refine ⟨nofun, ?_⟩
      intro hall
      rcases hlast with ⟨-, rfl⟩ | ⟨front, i, row, rfl⟩
      · exact nomatch hall 0 (List.length_pos_iff.mpr henvs)
      · have hi : i < j.envs.length := by
          obtain ⟨holdings, hc⟩ := hat.company
          rw [← hat.workers]
          exact hc.senders (.row i row) (by simp)
        exact absurd (hall i hi) (hat.company.not_mem_of_row_last (.ok ()))
  | ended hends hrows =>
      rw [List.nil_append] at hends
      cases hends with
      | done hrun hat hunfailed hlive =>
          refine ⟨fun _ i hi => ?_, fun _ => rfl⟩
          obtain ⟨message, hmem, hreport, rfl⟩ :=
            mem_reporters_iff.mp (hat.mem_reporters hlive hi)
          have hproper := hunfailed message hmem
          cases message with
          | row i row => cases hreport
          | finished i => exact hmem
          | failed i e => cases hproper
      | @failed front i e _ _ _ _ hrun hat hlog hunfailed =>
          refine ⟨nofun, ?_⟩
          intro hall
          have hfailed : Worker.report i (.error e) ∈ log := by
            rw [hlog]
            exact List.mem_append_right _ (List.mem_singleton_self _)
          have hi := hat.company.lt_of_mem_reporters (mem_reporters_iff.mpr
            ⟨_, hfailed, rfl, rfl⟩)
          rw [hat.workers] at hi
          have hsuccess : Worker.report i (.ok ()) ∈ log := hall i hi
          cases hat.company.report_unique hsuccess hfailed
      | lost hrun hat hunfailed hlive hdone hqueue =>
          refine ⟨nofun, ?_⟩
          intro hall
          obtain ⟨hless, hsilent⟩ := hat.firstSilent_spec hlive
          exact absurd (mem_reporters_iff.mpr ⟨_, hall _ hless, rfl, rfl⟩) hsilent

/-- When a drained run has ended properly, so has every worker, after the rows received from
it. -/
theorem Drained.yields (h : j.Drained n [] log (rows, o)) (hok : o.result = .ok ()) {i : Nat}
    {e : Env} (he : j.envs[i]? = some e) :
    j.machine.Yields j.config j.store e (rowsFrom i log) (.ok ()) := by
  have henvs : j.envs ≠ [] := List.ne_nil_of_mem (List.mem_of_getElem? he)
  have hi : i < j.envs.length := (List.getElem?_eq_some_iff.mp he).1
  have hreport : Worker.report i (.ok ()) ∈ log := (h.result_eq_ok_iff henvs).mp hok i hi
  obtain ⟨r, w, hat⟩ := h.at
  obtain ⟨e', he', hyields⟩ := hat.company.yields hreport
  obtain rfl := Option.some.inj (he.symm.trans he')
  exact hyields

/-- An error that ends a drained run is that of the first report of a failure, unless a worker
was ended from within. -/
theorem Drained.error_cases (h : j.Drained n [] log (rows, o)) (hless : rows.length < n)
    {e : QueryError} (herror : o.result = .error e) :
    (∃ front i env, log = front ++ [.failed i e] ∧ Unfailed front ∧ j.envs[i]? = some env ∧
      j.machine.Yields j.config j.store env (rowsFrom i log) (.error e)) ∨
    ∃ i env, e = .worker i .unreported ∧ j.envs[i]? = some env ∧
      j.machine.Panics j.config j.store env (rowsFrom i log) := by
  cases h with
  | running hat hunfailed hrows hlast => omega
  | ended hends hrows =>
      rw [List.nil_append] at hends
      cases hends with
      | done hrun hat hunfailed hlive => cases herror
      | @failed front i e' _ _ _ _ hrun hat hlog hunfailed =>
          obtain rfl : e' = e := Except.error.inj herror
          have hmem : Worker.report i (.error e') ∈ log := by
            rw [hlog]
            exact List.mem_append_right _ (List.mem_singleton_self _)
          obtain ⟨env, henv, hyields⟩ := hat.company.yields hmem
          exact .inl ⟨front, i, env, hlog, hunfailed, henv, hyields⟩
      | lost hrun hat hunfailed hlive hdone hqueue =>
          obtain ⟨hi, hsilent⟩ := hat.firstSilent_spec hlive
          obtain ⟨env, henv, hpanics⟩ := hat.panics hdone hqueue hi hsilent
          exact .inr ⟨_, env, (Except.error.inj herror).symm, henv, hpanics⟩

/-- After the end of a drained run there is none. -/
theorem Drained.run_eq_none (h : j.Drained n [] log (rows, o)) (hless : rows.length < n) :
    o.state.run = none := by
  cases h with
  | running hat hunfailed hrows hlast => omega
  | ended hends hrows =>
      cases hends with
      | done hrun hat hunfailed hlive => exact hrun
      | failed hrun hat hlog hunfailed => exact hrun
      | lost hrun hat hunfailed hlive hdone hqueue => exact hrun

end Job
end OrderedQuery
