import RedstoneOS.SessionRuns

namespace RedstoneOS.CallMatching

open KernelState Execute KernelRuns Sessions SessionSteps SessionRuns ExecuteChecks Library.Runs

variable {sys : System} {m : Machine} {es : List Event} {log : List Record}

theorem matched_calledCalls (h : Matched log) : (calledCalls log).Nodup := by
  induction log with
  | nil => exact List.nodup_nil
  | cons e log ih =>
    cases e with
    | called => exact List.nodup_cons.mpr ⟨h.1, ih h.2⟩
    | returned => exact ih h.2
    | preempted => exact ih h.2

theorem matched_returnedCalls (h : Matched log) : (returnedCalls log).Nodup := by
  induction log with
  | nil => exact List.nodup_nil
  | cons e log ih =>
    cases e with
    | called => exact ih h.2
    | returned =>
      obtain ⟨hcall, -, -, hnew, -⟩ := h.1
      subst hcall
      exact List.nodup_cons.mpr ⟨hnew, ih h.2⟩
    | preempted => exact ih h.2

theorem matched_fits {pre post : List Record} {e : Record} (h : Matched (pre ++ e :: post)) :
    FitsLog post e := by
  induction pre with
  | nil => exact h.1
  | cons e' pre ih => exact ih h.2

theorem returnedCalls_step (m : Machine) {e : Event} (he : ∀ status x, e ≠ .halt status x) :
    returnedCalls (step sys m e).log = returnedCalls m.log := by
  cases e with
  | tick t x =>
    simp only [step, tickStep]
    split
    · rfl
    · rfl
  | switchTerminal => rfl
  | execute command x =>
    simp only [step, executeStep]
    split
    · rfl
    · rfl
  | halt status x => exact absurd rfl (he status x)
  | openFile => rfl
  | closeFile => rfl

theorem halt_returns (h : InRun m) (hload : ShellLoads sys) {status : UInt8} {x : Trap} :
    returnedCalls (step sys m (.halt status x)).log = returnedCalls m.log ∨
      ∃ r resumed, (step sys m (.halt status x)).running = resumed ∧
        (step sys m (.halt status x)).log =
          .returned (some m.running.call) .haltRet (status.toNat : Int) m.kernel.currentTerminalId
            r m.running status resumed :: m.log := by
  obtain ⟨a, hr, -⟩ := h
  obtain ⟨j, hj, -⟩ := hr.running
  cases hs : a.stack a.current with
  | nil => simp [hs] at hj
  | cons j rest =>
    cases rest with
    | nil =>
      obtain ⟨prog, hprog⟩ := hload x.uninit
      refine Or.inl ?_
      simp only [step, haltStep,
        ExecuteEffects.halt_root sys status _ (running_parent hr hs) hprog]
      rfl
    | cons c rest =>
      refine Or.inr ⟨j.ctx, c.proc, ?_, ?_⟩
      · rw [step, haltStep_parent hr status x hs]
      · rw [step, haltStep_parent hr status x hs, (running_pcb hr hs).1, hr.current]

/-- Execute/halt matching over every run from the boot shells: calls are numbered apart and
return at most once, a recorded return belongs to an earlier call of the process that it
resumes, with the registers of that call and the status of its child, and nothing but the
child's own `halt` makes the call return. -/
theorem returns_match_calls (hload : ShellLoads sys) (hboot : BootShells sys m)
    (hes : Along (step sys) (Regular sys) m es) :
    (calledCalls (run (step sys) m es).log).Nodup ∧
      (returnedCalls (run (step sys) m es).log).Nodup ∧
      (∀ pre post call target value t r child status resumed,
        (run (step sys) m es).log =
          pre ++ .returned call target value t r child status resumed :: post →
        call = some child.call ∧ target = .haltRet ∧ value = (status.toNat : Int) ∧
          .called child.call (some resumed) t child r ∈ post) ∧
      ∀ pre e post, es = pre ++ e :: post →
        returnedCalls (step sys (run (step sys) m pre) e).log =
            returnedCalls (run (step sys) m pre).log ∨
          ∃ status x r resumed, e = .halt status x ∧
            (step sys (run (step sys) m pre) e).running = resumed ∧
            (step sys (run (step sys) m pre) e).log =
              .returned (some (run (step sys) m pre).running.call) .haltRet (status.toNat : Int)
                (run (step sys) m pre).kernel.currentTerminalId r (run (step sys) m pre).running
                status resumed :: (run (step sys) m pre).log := by
  have hboot' := bootShells_inRun hload hboot
  obtain ⟨a, hr, -⟩ := inRun_run hload hboot' hes
  have hmatched := hr.holds.log.matched
  refine ⟨matched_calledCalls hmatched, matched_returnedCalls hmatched, ?_, ?_⟩
  · intro pre post call target value t r child status resumed hlog
    rw [hlog] at hmatched
    obtain ⟨hcall, htarget, hvalue, -, hcalled⟩ := matched_fits hmatched
    exact ⟨hcall, htarget, hvalue, hcalled⟩
  · rintro pre e post rfl
    rw [along_append] at hes
    have hpre := inRun_run hload hboot' hes.1
    by_cases he : ∀ status x, e ≠ .halt status x
    · exact Or.inl (returnedCalls_step _ he)
    · simp only [not_forall, not_not] at he
      obtain ⟨status, x, rfl⟩ := he
      refine (halt_returns hpre hload).imp_right fun ⟨r, resumed, hrun, hlog⟩ => ?_
      exact ⟨status, x, r, resumed, rfl, hrun, hlog⟩

theorem returns_match_calls_tiny :
    (returnedCalls (run (step tinySystem) tinyBoot tinyRun).log).Nodup ∧
      returnedCalls (run (step tinySystem) tinyBoot tinyRun).log = [4] :=
  ⟨(returns_match_calls tinySystem_shellLoads tinyBoot_bootShells tinyRun_regular).2.1,
    by decide⟩

end RedstoneOS.CallMatching
