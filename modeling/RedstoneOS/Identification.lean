import RedstoneOS.ExecuteChecks
import RedstoneOS.SessionRuns

namespace RedstoneOS.Identification

open KernelState Execute ExecuteEffects KernelRuns Sessions SessionSteps SessionRuns ExecuteChecks
open Library.Runs

variable {sys : System} {m : Machine} {a : Session} {es : List Event}

/-- The ways the kernel identifies the running process agree. -/
structure Identified (m : Machine) : Prop where
  page : m.kernel.pdArray userPage = userPageEntry m.running.slot
  stack : m.kernel.tss.esp0 = kernelStackTop m.running.slot
  terminal : m.kernel.terminalProcessInfo m.kernel.currentTerminalId = m.running.slot
  pcb : getPcbAddr m.kernel = pcbAddr m.running.slot

theorem identified_of_represents (h : Represents m a) : Identified m :=
  ⟨h.page, h.esp0, h.running_top, h.getPcbAddr_eq⟩

theorem identified_of_inRun (h : InRun m) : Identified m := by
  obtain ⟨a, hr, -⟩ := h
  exact identified_of_represents hr

theorem execute_loses (h : InRun m) {command : Option (List UInt8)} {x : Trap}
    (hfind : FindsSlot sys m (.execute command x))
    (hat : ¬ AtDisplayed sys m (.execute command x)) :
    ¬ Identified (step sys m (.execute command x)) := by
  obtain ⟨a, hr, -⟩ := h
  simp only [AtDisplayed, Classical.not_imp] at hat
  obtain ⟨hacc, hne⟩ := hat
  obtain ⟨p, hp, hfree⟩ := hfind hacc
  obtain ⟨⟨prog, hprog⟩, hpid⟩ := hacc
  obtain ⟨i, hi⟩ := exists_freeSlot hp hfree
  obtain ⟨j, hj, hrun⟩ := hr.running
  have hbusy := hr.holds.busy a.current j (mem_of_head? hj)
  intro hid
  have hterm := hid.terminal
  simp only [step, executeStep, execute_accepted sys _ hprog hpid, spawn_eq prog _ hi,
    enterProcess, attachTerminal_eq hr, Function.update_of_ne (Ne.symm hne), hr.running_top,
    hrun] at hterm
  rw [hterm, (freeSlot_some hi).2] at hbusy
  omega

theorem halt_loses (h : InRun m) (hload : ShellLoads sys) {status : UInt8} {x : Trap}
    (hat : ¬ AtDisplayed sys m (.halt status x)) :
    ¬ Identified (step sys m (.halt status x)) := by
  obtain ⟨a, hr, -⟩ := h
  simp only [AtDisplayed, Classical.not_imp] at hat
  obtain ⟨hparent, hne⟩ := hat
  obtain ⟨prog, hprog⟩ := hload x.uninit
  obtain ⟨i, hi⟩ := release_freeSlot hr
  have hslot := (freeSlot_some hi).1
  have hterm' : attachTerminal (haltRelease m.kernel) = m.kernel.terminalId := by
    rw [← attachTerminal_eq hr, attachTerminal, haltRelease_eq rfl]
    rfl
  intro hid
  have hterm := hid.terminal
  simp only [step, haltStep, halt_root sys status _ hparent hprog, spawn_eq prog _ hi,
    enterProcess, hterm'] at hterm
  rw [haltRelease_eq rfl] at hterm
  simp only [Function.update_of_ne (Ne.symm hne), Function.update_self, hparent] at hterm
  simp only [IsSlot] at hslot
  omega

/-- Over every run from the boot shells, the kernel always identifies the running process
exactly when each process is started while the displayed terminal is the scheduled one. -/
theorem identified_iff_atDisplayed (hload : ShellLoads sys) (hboot : BootShells sys m)
    (hfind : Along (step sys) (FindsSlot sys) m es) :
    (∀ pre, pre <+: es → Identified (run (step sys) m pre)) ↔
      Along (step sys) (AtDisplayed sys) m es := by
  refine observed_iff_along (J := InRun) ?_ (fun _ hm => identified_of_inRun hm) ?_
    (bootShells_inRun hload hboot) hfind
  · intro m e hm hf ha
    exact inRun_step hload hm ⟨hf, ha⟩
  · intro m e hm hf ha
    cases e with
    | execute command x => exact execute_loses hm hf ha
    | halt status x => exact halt_loses hm hload ha
    | tick => exact absurd trivial ha
    | switchTerminal => exact absurd trivial ha
    | openFile => exact absurd trivial ha
    | closeFile => exact absurd trivial ha

theorem identified_iff_atDisplayed_tiny :
    (∀ pre, pre <+: [.switchTerminal altF3, tinyExecute] →
      Identified (run (step tinySystem) tinyBoot pre)) ↔
      Along (step tinySystem) (AtDisplayed tinySystem) tinyBoot [.switchTerminal altF3, tinyExecute] :=
  identified_iff_atDisplayed tinySystem_shellLoads tinyBoot_bootShells
    ⟨trivial, fun _ => ⟨3, by decide, by decide⟩, trivial⟩

/-- With terminal 0 displayed and terminal 2 scheduled, `execute("shell")` attaches the new
process to terminal 0. -/
theorem execute_elsewhere_not_identified :
    Along (step tinySystem) (FindsSlot tinySystem) tinyBoot [tinyExecute] ∧
      ¬ Identified (run (step tinySystem) tinyBoot [tinyExecute]) := by
  refine ⟨⟨fun _ => ⟨3, by decide, by decide⟩, trivial⟩, fun h => ?_⟩
  have hterm := h.terminal
  revert hterm
  decide

end RedstoneOS.Identification
