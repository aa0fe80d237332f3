import RedstoneOS.ParentChains

namespace RedstoneOS.SlotSafety

open KernelState Execute Schedule ExecuteEffects KernelRuns Sessions SessionSteps SessionRuns
open ParentChains ExecuteChecks Library.Runs

variable {sys : System} {m : Machine} {a : Session} {es : List Event} {stack : Int → List Job}

/-- A call returns -1 and changes nothing, or takes a free slot whose PCB, kernel stack and
page no live process uses. -/
def CallSafe (k : Kernel) : ExecuteOutcome → Prop
  | .ret value k' => value = -1 ∧ k'.processState = k.processState ∧
      k'.terminalProcessInfo = k.terminalProcessInfo ∧ k'.pid = k.pid ∧
      k'.scheReady = k.scheReady ∧ k'.pcbs = k.pcbs
  | .iret k' => (IsSlot k'.pid ∧ k.processState k'.pid = 0) ∧
      ∀ p, Live k p → k'.pcbs (pcbAddr p) = k.pcbs (pcbAddr p) ∧
        k'.tss.esp0 ≠ kernelStackTop p ∧ k'.pdArray userPage ≠ userPageEntry p

/-- Every `execute` call that an event makes is safe: the system call, the one that `halt`
makes for a root shell and the one that a tick makes for a terminal without a process. -/
def SlotSafe (sys : System) (m : Machine) : Event → Prop
  | .execute command x =>
      CallSafe m.kernel (execute sys command x.uninit (entryRegs m x) m.kernel)
  | .halt _ x => (m.kernel.pcbs (getPcbAddr m.kernel)).parent = -1 →
      CallSafe (haltRelease m.kernel)
        (execute sys (some sys.shell) x.uninit (entryRegs m x) (haltRelease m.kernel))
  | .tick t x => m.kernel.terminalProcessInfo (nextTerminal m.kernel) = unused →
      CallSafe (startKernel t m)
        (execute sys (some sys.shell) x.uninit (entryRegs m x) (startKernel t m))
  | _ => True

theorem callSafe_ret (k : Kernel) : CallSafe k (.ret (-1) k) := ⟨rfl, rfl, rfl, rfl, rfl, rfl⟩

theorem callSafe_spawn (h : Holds m stack) {i : Int}
    (hi : freeSlot m.kernel.processState = some i) (prog : Program) (r : Regs) :
    CallSafe m.kernel (.iret (spawn prog r m.kernel)) := by
  obtain ⟨hslot, hfree⟩ := freeSlot_some hi
  rw [spawn_eq prog r hi]
  refine ⟨⟨hslot, hfree⟩, fun p hp => ?_⟩
  obtain ⟨t, j, hj, rfl⟩ := (live_iff h).mp hp
  have hne : j.proc.slot ≠ i := by
    intro he
    have hb := h.busy t j hj
    rw [he, hfree] at hb
    omega
  refine ⟨Function.update_of_ne (fun he => hne (pcbAddr_inj.mp he)) _ _, fun he => ?_, fun he => ?_⟩
  · exact hne (kernelStackTop_injective he).symm
  · simp only [Function.update_self] at he
    exact hne (userPageEntry_inj hslot (h.slots t j hj) he).symm

theorem callSafe_execute (h : Holds m stack) {command : Option (List UInt8)}
    {uninit : Nat → UInt8} (r : Regs)
    (hfree : ∀ prog, executeChecks sys command uninit = some prog → m.kernel.pid ≠ 5 →
      ∃ i, freeSlot m.kernel.processState = some i) :
    CallSafe m.kernel (execute sys command uninit r m.kernel) := by
  rw [execute]
  cases hc : executeChecks sys command uninit with
  | none => exact callSafe_ret m.kernel
  | some prog =>
    by_cases hpid : m.kernel.pid = 5
    · simp only [if_pos hpid]
      exact callSafe_ret m.kernel
    · simp only [if_neg hpid]
      obtain ⟨i, hi⟩ := hfree prog hc hpid
      exact callSafe_spawn h hi prog r

theorem slotSafe_of_inRun (h : InRun m) {e : Event} (he : FindsSlot sys m e) :
    SlotSafe sys m e := by
  have hstart := startsShell_of_inRun h e
  obtain ⟨a, hr, hjobs⟩ := h
  cases e with
  | tick t x =>
    intro htpi
    obtain ⟨hn, -⟩ := next_facts hr
    rw [hr.holds.top _ hn] at htpi
    exact absurd htpi (topSlot_ne_unused (hr.holds.slots _) (hjobs _ hn))
  | switchTerminal => trivial
  | execute command x =>
    refine callSafe_execute hr.holds _ fun prog hprog hpid => ?_
    obtain ⟨p, hp, hfree⟩ := he ⟨⟨prog, hprog⟩, hpid⟩
    exact exists_freeSlot hp hfree
  | halt status x =>
    intro _
    obtain ⟨j, hj, -⟩ := hr.running
    obtain ⟨rest, hs⟩ := exists_rest hj
    have hpop := hr.holds.pop hs hr.current
    exact callSafe_execute hpop _ fun _ _ _ => release_freeSlot hr
  | openFile => trivial
  | closeFile => trivial

theorem findsSlot_of_slotSafe {e : Event} (h : SlotSafe sys m e) : FindsSlot sys m e := by
  cases e with
  | execute command x =>
    rintro ⟨⟨prog, hprog⟩, hpid⟩
    simp only [SlotSafe, execute_accepted sys _ hprog hpid] at h
    exact ⟨_, h.1⟩
  | tick => trivial
  | switchTerminal => trivial
  | halt => trivial
  | openFile => trivial
  | closeFile => trivial

/-- Over every run from the boot shells, all calls are safe exactly when each call that passes
its tests finds an entry 0 in `process_state`. -/
theorem slotSafe_iff_findsSlot (hload : ShellLoads sys) (hboot : BootShells sys m)
    (hat : Along (step sys) (AtDisplayed sys) m es) :
    Along (step sys) (SlotSafe sys) m es ↔ Along (step sys) (FindsSlot sys) m es := by
  constructor
  · exact along_imp fun m e h => findsSlot_of_slotSafe h
  · intro hfind
    refine along_of_invariant (J := InRun) (C := Regular sys) ?_ ?_
      (bootShells_inRun hload hboot) (along_and.mpr ⟨hfind, hat⟩)
    · exact fun m e hm he => inRun_step hload hm he
    · exact fun m e hm he => slotSafe_of_inRun hm he.1

theorem slotSafe_iff_findsSlot_tiny :
    Along (step tinySystem) (SlotSafe tinySystem) tinyBoot tinyRun ↔
      Along (step tinySystem) (FindsSlot tinySystem) tinyBoot tinyRun :=
  slotSafe_iff_findsSlot tinySystem_shellLoads tinyBoot_bootShells
    (along_imp (fun _ _ h => h.2) tinyRun_regular)

def tinyExhaust : List Event :=
  [.switchTerminal altF3, tinyExecute, tinyExecute, tinyExecute, .switchTerminal altF1, tinyTick,
    .halt 7 tinyTrap, tinyExecute]

theorem execute_reuses_live_slot :
    Along (step tinySystem) (AtDisplayed tinySystem) tinyBoot (tinyExhaust ++ [tinyExecute]) ∧
      ¬ SlotSafe tinySystem (run (step tinySystem) tinyBoot tinyExhaust) tinyExecute := by
  constructor
  · exact ⟨trivial, fun _ => by decide, fun _ => by decide, fun _ => by decide, trivial, trivial,
      fun _ => by decide, fun _ => by decide, fun _ => by decide, trivial⟩
  · intro h
    have hfull : freeSlot (run (step tinySystem) tinyBoot tinyExhaust).kernel.processState = none := by
      decide
    obtain ⟨p, hp, hfree⟩ := findsSlot_of_slotSafe h
      ⟨tinySystem_shellLoads tinyTrap.uninit, by decide⟩
    obtain ⟨i, hi⟩ := exists_freeSlot hp hfree
    rw [hfull] at hi
    cases hi

end RedstoneOS.SlotSafety
