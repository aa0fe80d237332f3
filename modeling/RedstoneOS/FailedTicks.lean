import RedstoneOS.Outcomes
import RedstoneOS.ExecuteChecks

namespace RedstoneOS.FailedTicks

open KernelState Execute Schedule ExecuteEffects KernelRuns Outcomes ExecuteChecks Library.Runs

/-- The tick turns to a terminal without a process, and the `execute` of `run_a_new_shell`
returns. -/
structure FailedTick (sys : System) (t x : Trap) (m : Machine) : Prop where
  vacant : m.kernel.terminalProcessInfo (nextTerminal m.kernel) = unused
  returns : ∃ value k, execute sys (some sys.shell) x.uninit (entryRegs m x)
    (shellKernel (entryRegs m t) m.kernel) = .ret value k

/-- The preempted process goes on, the kernel finds its PCB, and what it executes is attached to
its terminal. -/
structure Undisturbed (m m' : Machine) : Prop where
  resumed : m'.running = m.running
  pcb : getPcbAddr m'.kernel = pcbAddr m.running.slot
  attaches : attachTerminal m'.kernel = m.kernel.currentTerminalId

variable {sys : System} {t x : Trap} {m : Machine}

/-- The handler falls through to its end, with the PCB that it has just saved to. -/
theorem scheduleHandler_failed (h : FailedTick sys t x m) :
    scheduleHandler sys x.uninit (entryRegs m t) (entryRegs m x) m.kernel =
      restoreContext (shellKernel (entryRegs m t) m.kernel) := by
  obtain ⟨value, k, hret⟩ := h.returns
  have hk := execute_ret hret
  subst hk
  have hvacant : (saveContext (entryRegs m t) m.kernel).terminalProcessInfo
      (saveContext (entryRegs m t) m.kernel).nextScheTerminal = unused := h.vacant
  have hshell : runANewShell sys x.uninit (entryRegs m x) (saveContext (entryRegs m t) m.kernel) =
      .ret value (shellKernel (entryRegs m t) m.kernel) := hret
  rw [scheduleHandler]
  simp only [if_pos hvacant, hshell]

theorem restored_esp (r : Regs) (k : Kernel) :
    ((shellKernel r k).pcbs (shellKernel r k).currProcess).scheEsp = r.esp := by
  simp only [shellKernel, saveContext, setPcb, Function.update_self]

theorem failed_tick (h : FailedTick sys t x m) :
    (step sys m (.tick t x)).running = m.running ∧
      (step sys m (.tick t x)).kernel.currentTerminalId = nextTerminal m.kernel ∧
      (step sys m (.tick t x)).kernel.scheReady = 1 ∧
      (step sys m (.tick t x)).kernel.terminalProcessInfo = m.kernel.terminalProcessInfo := by
  have hesp := restored_esp (entryRegs m t) m.kernel
  simp only [step, tickStep, scheduleHandler_failed h, restoreContext]
  refine ⟨?_, rfl, rfl, rfl⟩
  rw [hesp, Function.update_self]

theorem getPcbAddr_failed (h : FailedTick sys t x m) :
    getPcbAddr (step sys m (.tick t x)).kernel = pcbAddr unused := by
  obtain ⟨-, hcurrent, -, hinfo⟩ := failed_tick h
  rw [getPcbAddr, hcurrent, hinfo, h.vacant]

/-- No process is undisturbed by a tick that cannot start a shell, in any run from boot. -/
theorem failed_tick_disturbs (k : Kernel) (kstack : Int → Suspended) (es : List Event)
    (h : FailedTick sys t x (run (step sys) (initial k kstack) es))
    (hprocess : (run (step sys) (initial k kstack) es).running.slot ≠ unused) :
    ¬ Undisturbed (run (step sys) (initial k kstack) es)
      (step sys (run (step sys) (initial k kstack) es) (.tick t x)) := by
  intro hundisturbed
  have hpcb := hundisturbed.pcb
  rw [getPcbAddr_failed h, pcbAddr_inj] at hpcb
  exact hprocess hpcb.symm

theorem failedTick_of_pid (hpid : m.kernel.pid = 5)
    (hvacant : m.kernel.terminalProcessInfo (nextTerminal m.kernel) = unused) :
    FailedTick sys t x m :=
  ⟨hvacant, -1, _, execute_rejected sys (entryRegs m x) fun _ _ => hpid⟩

def crowded : List Event :=
  [tinyTick, tinyExecute, tinyExecute, tinyExecute, tinyExecute, tinyExecute]

theorem crowded_fails :
    FailedTick tinySystem tinyTrap tinyTrap (run (step tinySystem) tinyInitial crowded) :=
  failedTick_of_pid (by decide) (by decide)

theorem failed_tick_disturbs_crowded :
    FailedTick tinySystem tinyTrap tinyTrap (run (step tinySystem) tinyInitial crowded) ∧
      (run (step tinySystem) tinyInitial crowded).running.slot ≠ unused ∧
      ¬ Undisturbed (run (step tinySystem) tinyInitial crowded)
        (step tinySystem (run (step tinySystem) tinyInitial crowded) tinyTick) :=
  ⟨crowded_fails, by decide, failed_tick_disturbs tinyKernel _ crowded crowded_fails (by decide)⟩

/-- The kernel takes the top of the kernel stacks for the PCB of the process in slot 5. -/
theorem crowded_disturbed :
    (run (step tinySystem) tinyInitial crowded).running.slot = 5 ∧
      getPcbAddr (run (step tinySystem) tinyInitial (crowded ++ [tinyTick])).kernel = baMb ∧
      ¬ Undisturbed (run (step tinySystem) tinyInitial crowded)
        (step tinySystem (run (step tinySystem) tinyInitial crowded) tinyTick) := by
  refine ⟨by decide, by decide, fun h => ?_⟩
  have hslot := pcbAddr_injective ((getPcbAddr_failed crowded_fails).symm.trans h.pcb)
  exact absurd hslot (by decide)

end RedstoneOS.FailedTicks
