import RedstoneOS.Outcomes
import RedstoneOS.SessionRuns

namespace RedstoneOS.ReadPcb

open KernelState Lib Filesystem Execute Schedule ExecuteEffects Syscalls KernelRuns Sessions
open SessionSteps SessionRuns ExecuteChecks Outcomes Library.Runs

variable {sys : System} {m : Machine} {es : List Event}

/-- `pid` is the process of the terminal that it was last written for. -/
def PidFollows (m : Machine) : Prop :=
  ∀ t, lastTerminal m.log = some t → m.kernel.terminalProcessInfo t = m.kernel.pid

theorem spawn_terminal (prog : Program) (r : Regs) (k : Kernel) :
    (spawn prog r k).terminalProcessInfo (attachTerminal k) = (spawn prog r k).pid := by
  simp only [spawn, constructPcbEntries, storeArguments, storeContext, setPcb, switchPd,
    Function.update_self]

theorem enterProcess_pidFollows {caller : Option Proc} {t : Int} {waiting : Suspended} {r : Regs}
    {k : Kernel} (h : k.terminalProcessInfo t = k.pid) (m : Machine) :
    PidFollows (enterProcess caller t waiting r k m) := by
  intro u hu
  obtain rfl : t = u := by simpa [enterProcess, lastTerminal] using hu
  exact h

theorem haltRelease_terminal (k : Kernel) :
    (haltRelease k).terminalProcessInfo k.currentTerminalId = (haltRelease k).pid := by
  rw [haltRelease_eq rfl]
  exact Function.update_self _ _ _

theorem attachTerminal_haltRelease (k : Kernel) :
    attachTerminal (haltRelease k) = attachTerminal k := by
  rw [haltRelease_eq rfl]
  rfl

theorem pidFollows_quiet (h : PidFollows m) {k : Kernel} (hq : Quiet m.kernel k) :
    PidFollows { m with kernel := k } := by
  intro t ht
  change k.terminalProcessInfo t = k.pid
  rw [hq.terminalProcessInfo, hq.pid]
  exact h t ht

/-- Every event keeps `pid` and the process of the last written terminal the same, whatever
the state of the rest of the kernel. -/
theorem pidFollows_step (h : PidFollows m) (e : Event) : PidFollows (step sys m e) := by
  cases e with
  | tick t x =>
    obtain ⟨-, ⟨prog, hs⟩ | ⟨tss, r', hs⟩⟩ | ⟨-, r', hs⟩ :=
      scheduleHandler_cases sys x.uninit (entryRegs m t) (entryRegs m x) m.kernel
    · simp only [step, tickStep, hs]
      exact enterProcess_pidFollows (spawn_terminal prog _ (shellKernel (entryRegs m t) m.kernel)) _
    · simp only [step, tickStep, hs]
      exact h
    · simp only [step, tickStep, hs]
      exact h
  | switchTerminal target => exact pidFollows_quiet h (quiet_switchTerminal target m.kernel)
  | execute command x =>
    simp only [step, executeStep]
    cases he : execute sys command x.uninit (entryRegs m x) m.kernel with
    | iret k =>
      obtain ⟨prog, -, -, rfl⟩ := execute_iret he
      exact enterProcess_pidFollows (spawn_terminal prog _ m.kernel) _
    | ret value k =>
      obtain rfl := execute_ret he
      exact h
  | halt status x =>
    obtain ⟨-, prog, hh⟩ | hh := halt_cases sys status x.uninit (entryRegs m x) m.kernel
    · simp only [step, haltStep, hh]
      refine enterProcess_pidFollows ?_ _
      rw [← attachTerminal_haltRelease]
      exact spawn_terminal prog _ (haltRelease m.kernel)
    · simp only [step, haltStep, hh, haltJump]
      intro u hu
      obtain rfl : m.kernel.currentTerminalId = u := by simpa [lastTerminal] using hu
      exact haltRelease_terminal m.kernel
  | openFile filename => exact pidFollows_quiet h (quiet_openCall sys filename m.kernel)
  | closeFile fd => exact pidFollows_quiet h (quiet_closeCall fd m.kernel)

theorem pidFollows_run (k : Kernel) (kstack : Int → Suspended) (es : List Event) :
    PidFollows (run (step sys) (initial k kstack) es) := by
  exact run_always (J := PidFollows) (fun _ e hm => pidFollows_step hm e)
    (fun t ht => by simp [initial, lastTerminal] at ht) es

/-- In a regular run `pid` is the running process exactly when no tick has changed the
terminal since the latest `execute` or `halt`. -/
theorem pid_iff_lastTerminal (hload : ShellLoads sys) (hboot : BootShells sys m)
    (hes : Along (step sys) (Regular sys) m es) :
    pcbAddr (run (step sys) m es).kernel.pid = getPcbAddr (run (step sys) m es).kernel ↔
      lastTerminal (run (step sys) m es).log =
        some (run (step sys) m es).kernel.currentTerminalId := by
  obtain ⟨a, hr, -⟩ := inRun_run hload (bootShells_inRun hload hboot) hes
  obtain ⟨u, hu, j, hj, hpid⟩ := hr.lastCall
  rw [hr.getPcbAddr_eq, pcbAddr_inj, hpid, hu, Option.some_inj]
  constructor
  · intro hslot
    by_contra hne
    exact hr.other_slot (fun he => hne (he.trans hr.current.symm)) (mem_of_head? hj) hslot
  · rintro rfl
    rw [hr.current] at hj
    obtain ⟨c, hc, hrun⟩ := hr.running
    rw [hrun, Option.mem_unique hj hc]

/-- The read function that `read` enters works on the PCB that `read` has checked: the data
comes through the descriptor's own inode and position, and only this position changes. -/
structure ReadsChecked (sys : System) (fd : Int) (buf : Nat) (nbytes : Int) (k : Kernel)
    (mem : Mem) : Prop where
  pcb : pcbAddr k.pid = getPcbAddr k
  inode : readDispatch fd buf k = .enter .file → 2 ≤ fd →
    ((fileRead sys.fs fd buf nbytes k mem).1, (fileRead sys.fs fd buf nbytes k mem).2.2) =
      readData mem sys.fs (entryAt k fd).inode (entryAt k fd).filePosition buf (u32 nbytes)
  position : ∀ v k' mem', readCall sys fd buf nbytes k mem = some (v, k', mem') →
    k' = k ∨ ∃ pos, k' = setEntry fd (fun e => { e with filePosition := pos }) k

theorem readsChecked_of_pcb {fd : Int} {buf : Nat} {nbytes : Int} {k : Kernel} {mem : Mem}
    (h : pcbAddr k.pid = getPcbAddr k) : ReadsChecked sys fd buf nbytes k mem where
  pcb := h
  inode hd hfd := by
    have hvalid := not_standard ⟨hfd, (readDispatch_fd hd).2⟩
    simp only [fileRead, if_neg hvalid, h, entryAt]
    split
    · rfl
    · next hv =>
      rw [ne_eq, not_not] at hv
      exact Prod.ext hv.symm rfl
  position v k' mem' hcall := by
    have hset : ∀ pos, setFilePosition (pcbAddr k.pid) fd pos k =
        setEntry fd (fun e => { e with filePosition := pos }) k := by
      intro pos
      rw [setFilePosition, h, setEntry]
    refine (readCall_kernel hcall).imp_right fun hmoved => ?_
    obtain ⟨pos, hp⟩ := hmoved
    exact ⟨pos, hp.trans (hset pos)⟩

/-- In every run from boot, a `read` on the terminal of the latest `execute` or `halt` works
on the PCB that it has checked. -/
theorem read_uses_checked_pcb (k : Kernel) (kstack : Int → Suspended) (es : List Event)
    (hlast : lastTerminal (run (step sys) (initial k kstack) es).log =
      some (run (step sys) (initial k kstack) es).kernel.currentTerminalId)
    (fd : Int) (buf : Nat) (nbytes : Int) (mem : Mem) :
    ReadsChecked sys fd buf nbytes (run (step sys) (initial k kstack) es).kernel mem := by
  refine readsChecked_of_pcb ?_
  rw [getPcbAddr, pidFollows_run k kstack es _ hlast]

theorem read_uses_checked_pcb_tiny :
    ReadsChecked tinySystem 2 0x8000000 10
      (run (step tinySystem) tinyInitial
        [tinyTick, tinyTick, tinyTick, .openFile (some tinySystem.shell)]).kernel tinyMem :=
  read_uses_checked_pcb tinyKernel _ _ (by decide) 2 0x8000000 10 tinyMem

def tinyTurn : List Event :=
  [tinyTick, tinyTick, tinyTick, tinyTick, .openFile (some tinySystem.shell)]

/-- The shell of terminal 0 reads a file it has opened: `read` checks its PCB but enters
`file_read` for the PCB of slot 2. -/
theorem read_after_tick_uses_other_pcb :
    readDispatch 2 0x8000000 (run (step tinySystem) tinyInitial tinyTurn).kernel = .enter .file ∧
      ¬ ReadsChecked tinySystem 2 0x8000000 10 (run (step tinySystem) tinyInitial tinyTurn).kernel
        tinyMem := by
  refine ⟨by decide, fun h => ?_⟩
  have hpcb := h.pcb
  revert hpcb
  decide

end RedstoneOS.ReadPcb
