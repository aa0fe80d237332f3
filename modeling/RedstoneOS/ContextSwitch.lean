import RedstoneOS.SessionRuns

namespace RedstoneOS.ContextSwitch

open KernelState Execute Schedule ExecuteEffects KernelRuns Sessions SessionSteps SessionRuns
open ExecuteChecks Library.Runs

variable {sys : System} {m : Machine} {es : List Event}

def ByProcess (m : Machine) : Event → Prop
  | .tick _ _ => True
  | .switchTerminal _ => True
  | _ => m.kernel.currentTerminalId ≠ unused

/-- The runs of the kernel from the start of the scheduler: every tick that finds a terminal
without a process can start its shell, and afterwards the assumptions of `Regular` hold. -/
def Booted (sys : System) (m : Machine) (e : Event) : Prop :=
  ByProcess m e ∧ StartsShell m e ∧ Regular sys m e

/-- Before the first tick nothing has been started, afterwards the kernel holds sessions. -/
def Scheduling (m : Machine) : Prop :=
  (Booting 0 m ∧ m.log = []) ∨ ∃ a, Represents m a

theorem scheduling_step (hload : ShellLoads sys) (h : Scheduling m) {e : Event}
    (he : Booted sys m e) : Scheduling (step sys m e) := by
  obtain ⟨hproc, hstart, hfind, hat⟩ := he
  obtain ⟨hboot, hlog⟩ | ⟨a, hr⟩ := h
  · have hcur : ¬ m.kernel.currentTerminalId ≠ unused := by
      simp [hboot.current, unused]
    cases e with
    | tick t x => exact Or.inr (first_tick hboot hlog hload t x)
    | switchTerminal target =>
      exact Or.inl ⟨⟨hboot.current, hboot.next, hboot.pid, hboot.shells, hboot.idle, hboot.busy,
        hboot.free⟩, hlog⟩
    | execute => exact absurd hproc hcur
    | halt => exact absurd hproc hcur
    | openFile => exact absurd hproc hcur
    | closeFile => exact absurd hproc hcur
  · obtain ⟨a', -, hr'⟩ := step_refines hr hload hfind hat hstart
    exact Or.inr ⟨a', hr'⟩

/-- A tick resumes a terminal from the context that the latest tick that interrupted this
terminal stored, in the PCB of the process that the terminal names. -/
structure ResumesPreempted (sys : System) (m : Machine) (t x : Trap) (proc : Proc) (r : Regs)
    (k : Kernel) : Prop where
  handler : scheduleHandler sys x.uninit (entryRegs m t) (entryRegs m x) m.kernel = .resume k r
  stored : lastPreempted (nextTerminal m.kernel) m.log = some (proc, r)
  loaded : r = ⟨(k.pcbs k.currProcess).scheEsp, (k.pcbs k.currProcess).scheEbp⟩
  pcb : k.currProcess = pcbAddr (m.kernel.terminalProcessInfo (nextTerminal m.kernel))
  slot : proc.slot = m.kernel.terminalProcessInfo (nextTerminal m.kernel)
  running : (step sys m (.tick t x)).running = proc
  terminal : k.currentTerminalId = nextTerminal m.kernel
  page : k.pdArray userPage = userPageEntry proc.slot
  esp0 : k.tss.esp0 = kernelStackTop proc.slot

theorem resumesPreempted_of_represents {a : Session} (h : Represents m a) (t x : Trap)
    (hused : m.kernel.terminalProcessInfo (nextTerminal m.kernel) ≠ unused) :
    ∃ proc r k, ResumesPreempted sys m t x proc r k := by
  obtain ⟨hn, hne⟩ := next_facts h
  cases hs : a.stack (nextTerminal m.kernel) with
  | nil =>
    rw [h.holds.top _ hn, hs] at hused
    exact absurd rfl hused
  | cons j rest =>
    have hj : j ∈ (a.stack (nextTerminal m.kernel)).head? := by rw [hs]; rfl
    have htop : m.kernel.terminalProcessInfo (nextTerminal m.kernel) = j.proc.slot := by
      rw [h.holds.top _ hn, topSlot_eq hj]
    have hother := h.other_slot hne (mem_of_head? hj)
    have hpcb := interrupted_pcb_other h t hother
    have hlast := (h.waiting _ hne j hj).last
    obtain ⟨r, hstored, -, hres⟩ := scheduleHandler_eq h sys x.uninit t (entryRegs m x) hj
    rw [hstored] at hlast
    have hr : r = _ := congrArg Prod.snd (Option.some.inj hlast)
    refine ⟨j.proc, r, _, hres, hstored, ?_, by rw [htop], htop.symm, ?_, rfl, ?_, rfl⟩
    · rw [hr, ← hpcb]
      rfl
    · rw [step, tickStep_resume h t x hj]
    · simp only [Function.update_self]

/-- The context switch round trip over every run from the start of the scheduler. -/
theorem tick_resumes_preempted (hload : ShellLoads sys) {k : Kernel} {kstack : Int → Suspended}
    (hes : Along (step sys) (Booted sys) (initial k kstack) es) (t x : Trap)
    (hused : (run (step sys) (initial k kstack) es).kernel.terminalProcessInfo
      (nextTerminal (run (step sys) (initial k kstack) es).kernel) ≠ unused) :
    ∃ proc r k', ResumesPreempted sys (run (step sys) (initial k kstack) es) t x proc r k' := by
  have hsched : Scheduling (run (step sys) (initial k kstack) es) :=
    run_invariant (J := Scheduling) (fun _ _ hm he => scheduling_step hload hm he)
      (Or.inl ⟨booting_initial k kstack, rfl⟩) hes
  obtain ⟨hboot, -⟩ | ⟨a, hr⟩ := hsched
  · exact absurd (booting_unused hboot (by omega)) hused
  · exact resumesPreempted_of_represents hr t x hused

theorem tick_resumes_preempted_tiny :
    ∃ proc r k', ResumesPreempted tinySystem
      (run (step tinySystem) tinyInitial
        [tinyTick, tinyTick, tinyTick, .switchTerminal altF3, tinyExecute]) tinyTrap tinyTrap
      proc r k' := by
  refine tick_resumes_preempted tinySystem_shellLoads ?_ tinyTrap tinyTrap (by decide)
  have hstart : ∀ {m : Machine}, m.kernel.pid ≠ 5 → m.kernel.processState 3 = 0 →
      Booted tinySystem m tinyTick :=
    fun hpid hfree => ⟨trivial, fun _ => ⟨hpid, 3, by decide, hfree⟩, trivial, trivial⟩
  exact ⟨hstart (by decide) (by decide), hstart (by decide) (by decide),
    hstart (by decide) (by decide), ⟨trivial, trivial, trivial, trivial⟩,
    ⟨(by decide : (2 : Int) ≠ unused), trivial, fun _ => ⟨3, by decide, by decide⟩,
      fun _ => by decide⟩, trivial⟩

end RedstoneOS.ContextSwitch
