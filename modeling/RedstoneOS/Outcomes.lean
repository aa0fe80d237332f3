import RedstoneOS.ExecuteEffects
import RedstoneOS.KernelRuns

namespace RedstoneOS.Outcomes

open KernelState Execute Schedule ExecuteEffects Syscalls KernelRuns

variable {sys : System} {command : Option (List UInt8)} {uninit : Nat → UInt8} {r x : Regs}
  {k k' : Kernel} {m : Machine}

theorem execute_iret (h : execute sys command uninit r k = .iret k') :
    ∃ prog, executeChecks sys command uninit = some prog ∧ k.pid ≠ 5 ∧ k' = spawn prog r k := by
  rw [execute] at h
  cases hc : executeChecks sys command uninit with
  | none => simp [hc] at h
  | some prog =>
    by_cases hpid : k.pid = 5
    · simp [hc, hpid] at h
    · simp only [hc, if_neg hpid, ExecuteOutcome.iret.injEq] at h
      exact ⟨prog, rfl, hpid, h.symm⟩

theorem execute_ret {value : Int} (h : execute sys command uninit r k = .ret value k') :
    k' = k := by
  rw [execute] at h
  cases hc : executeChecks sys command uninit with
  | none => simp_all
  | some prog =>
    by_cases hpid : k.pid = 5
    · simp_all
    · simp [hc, hpid] at h

def shellKernel (r : Regs) (k : Kernel) : Kernel :=
  { saveContext r k with scheReady := 1, currentTerminalId := nextTerminal k }

def resumeKernel (r : Regs) (k : Kernel) : Kernel :=
  let p := (saveContext r k).pcbs (pcbAddr (k.terminalProcessInfo (nextTerminal k)))
  { saveContext r k with
    currProcess := pcbAddr (k.terminalProcessInfo (nextTerminal k))
    currentTerminalId := nextTerminal k
    pdArray := Function.update k.pdArray userPage (userPageEntry p.PID)
    tss := { esp0 := kernelStackTop p.PID, ss0 := kernelDs } }

/-- All that a tick can do, from any state: start a shell on the next terminal, fail to start
one, or resume the process that is there. -/
theorem scheduleHandler_cases (sys : System) (uninit : Nat → UInt8) (r x : Regs) (k : Kernel) :
    (k.terminalProcessInfo (nextTerminal k) = unused ∧
      ((∃ prog, scheduleHandler sys uninit r x k = .iret (spawn prog x (shellKernel r k))) ∨
        ∃ tss r', scheduleHandler sys uninit r x k = .resume { shellKernel r k with tss := tss } r')) ∨
    (k.terminalProcessInfo (nextTerminal k) ≠ unused ∧
      ∃ r', scheduleHandler sys uninit r x k = .resume (resumeKernel r k) r') := by
  by_cases hn : k.terminalProcessInfo (nextTerminal k) = unused
  · have hn' : (saveContext r k).terminalProcessInfo (saveContext r k).nextScheTerminal = unused := hn
    refine Or.inl ⟨hn, ?_⟩
    simp only [scheduleHandler, if_pos hn', runANewShell]
    cases he : execute sys (some sys.shell) uninit x
        { saveContext r k with
          scheReady := 1
          currentTerminalId := (saveContext r k).nextScheTerminal } with
    | iret k' =>
      obtain ⟨prog, -, -, rfl⟩ := execute_iret he
      exact Or.inl ⟨prog, rfl⟩
    | ret value k' =>
      obtain rfl := execute_ret he
      exact Or.inr ⟨_, _, rfl⟩
  · exact Or.inr ⟨hn, _, scheduleHandler_resume sys uninit r x hn rfl⟩

/-- All that `halt` can do, from any state, once it has released its process. -/
theorem halt_cases (sys : System) (status : UInt8) (uninit : Nat → UInt8) (r : Regs)
    (k : Kernel) :
    ((k.pcbs (getPcbAddr k)).parent = -1 ∧
      ∃ prog, halt sys status uninit r k = .iret (spawn prog r (haltRelease k))) ∨
      halt sys status uninit r k = haltJump status (getPcbAddr k) (haltRelease k) := by
  by_cases hp : (haltRelease k).pid = -1
  · simp only [halt, if_pos hp]
    cases he : execute sys (some sys.shell) uninit r (haltRelease k) with
    | iret k' =>
      obtain ⟨prog, -, -, rfl⟩ := execute_iret he
      exact Or.inl ⟨haltRelease_pid k ▸ hp, prog, rfl⟩
    | ret value k' =>
      obtain rfl := execute_ret he
      exact Or.inr rfl
  · exact Or.inr (by simp only [halt, if_neg hp])

/-- The event has started a process: it called `execute` for `prog` with the kernel `k`. -/
structure Started (sys : System) (m : Machine) (e : Event) (prog : Program) (r : Regs)
    (k : Kernel) : Prop where
  kernel : (step sys m e).kernel = spawn prog r k
  running : (step sys m e).running = ⟨(spawn prog r k).pid, m.calls + 1⟩
  calls : (step sys m e).calls = m.calls + 1

theorem tick_step (sys : System) (t x : Trap) (m : Machine) :
    (m.kernel.terminalProcessInfo (nextTerminal m.kernel) = unused ∧
      ((∃ prog, Started sys m (.tick t x) prog (entryRegs m x)
          (shellKernel (entryRegs m t) m.kernel)) ∨
        ((step sys m (.tick t x)).calls = m.calls ∧ ∃ tss, (step sys m (.tick t x)).kernel =
          { shellKernel (entryRegs m t) m.kernel with tss := tss }))) ∨
    (m.kernel.terminalProcessInfo (nextTerminal m.kernel) ≠ unused ∧
      (step sys m (.tick t x)).calls = m.calls ∧
      (step sys m (.tick t x)).kernel = resumeKernel (entryRegs m t) m.kernel) := by
  obtain ⟨hn, ⟨prog, h⟩ | ⟨tss, r', h⟩⟩ | ⟨hn, r', h⟩ :=
    scheduleHandler_cases sys x.uninit (entryRegs m t) (entryRegs m x) m.kernel
  · refine Or.inl ⟨hn, Or.inl ⟨prog, ?_, ?_, ?_⟩⟩ <;> simp only [step, tickStep, h, enterProcess]
  · refine Or.inl ⟨hn, Or.inr ⟨?_, tss, ?_⟩⟩ <;> simp only [step, tickStep, h]
  · refine Or.inr ⟨hn, ?_, ?_⟩ <;> simp only [step, tickStep, h]

theorem execute_step (sys : System) (command : Option (List UInt8)) (x : Trap) (m : Machine) :
    (∃ prog, executeChecks sys command x.uninit = some prog ∧ m.kernel.pid ≠ 5 ∧
      Started sys m (.execute command x) prog (entryRegs m x) m.kernel) ∨
    ((∀ prog, executeChecks sys command x.uninit = some prog → m.kernel.pid = 5) ∧
      step sys m (.execute command x) = m) := by
  by_cases hacc : ∃ prog, executeChecks sys command x.uninit = some prog ∧ m.kernel.pid ≠ 5
  · obtain ⟨prog, hprog, hpid⟩ := hacc
    have he := execute_accepted sys (entryRegs m x) hprog hpid
    refine Or.inl ⟨prog, hprog, hpid, ?_, ?_, ?_⟩ <;>
      simp only [step, executeStep, he, enterProcess]
  · have hrej : ∀ prog, executeChecks sys command x.uninit = some prog → m.kernel.pid = 5 :=
      fun prog hprog => by_contra fun hpid => hacc ⟨prog, hprog, hpid⟩
    refine Or.inr ⟨hrej, ?_⟩
    simp only [step, executeStep, execute_rejected sys _ hrej]

theorem halt_step (sys : System) (status : UInt8) (x : Trap) (m : Machine) :
    ((m.kernel.pcbs (getPcbAddr m.kernel)).parent = -1 ∧
      ∃ prog, Started sys m (.halt status x) prog (entryRegs m x) (haltRelease m.kernel)) ∨
    ((step sys m (.halt status x)).calls = m.calls ∧ (step sys m (.halt status x)).kernel =
      switchPd (userPageAddr (haltRelease m.kernel).pid)
        { haltRelease m.kernel with globalReturnStatus := status }) := by
  obtain ⟨hp, prog, h⟩ | h := halt_cases sys status x.uninit (entryRegs m x) m.kernel
  · refine Or.inl ⟨hp, prog, ?_, ?_, ?_⟩ <;> simp only [step, haltStep, h, enterProcess]
  · refine Or.inr ⟨?_, ?_⟩ <;> simp only [step, haltStep, h, haltJump]

end RedstoneOS.Outcomes
