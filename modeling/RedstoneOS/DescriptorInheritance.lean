import RedstoneOS.Descriptors
import RedstoneOS.ProcessStarts

namespace RedstoneOS.DescriptorInheritance

open KernelState Execute Schedule ExecuteEffects Syscalls KernelRuns Sessions SessionSteps
open SessionRuns Outcomes ProcessStarts Descriptors ExecuteChecks SequentialReads Library.Runs

variable {sys : System} {m : Machine} {a : Session} {e : Event} {k k' : Kernel} {prog : Program}
  {i : Int}

def slotFlags (k : Kernel) (p fd : Int) : Nat := ((k.pcbs (pcbAddr p)).fileArray fd).flags

/-- The slots without a process have descriptors 2 to 7 closed. -/
def DeadClosed (k : Kernel) : Prop :=
  ∀ p, IsSlot p → k.processState p = 0 → ∀ fd, 2 ≤ fd → fd ≤ 7 → slotFlags k p fd = 0

/-- A process that the event starts has descriptors 0 and 1 open and no others. -/
def StartsFresh (sys : System) (m : Machine) (e : Event) : Prop :=
  (step sys m e).calls ≠ m.calls → Fresh (step sys m e).kernel

theorem DeadClosed.frame (h : DeadClosed k) (hps : k'.processState = k.processState)
    (hflags : ∀ p fd, IsSlot p → k.processState p = 0 → slotFlags k' p fd = slotFlags k p fd) :
    DeadClosed k' := by
  intro p hp hdead fd hlo hhi
  rw [hps] at hdead
  rw [hflags p fd hp hdead]
  exact h p hp hdead fd hlo hhi

theorem deadClosed_spawn (h : DeadClosed k) (hi : freeSlot k.processState = some i)
    (prog : Program) (r : Regs) : DeadClosed (spawn prog r k) := by
  intro p hp hdead fd hlo hhi
  have hne : p ≠ i := by
    rintro rfl
    rw [spawn_eq prog r hi] at hdead
    simp at hdead
  rw [slotFlags, spawn_pcb_other prog r hi hne]
  rw [spawn_eq prog r hi] at hdead
  simp only [Function.update_of_ne hne] at hdead
  exact h p hp hdead fd hlo hhi

theorem slotFlags_saveContext (r : Regs) (k : Kernel) (p fd : Int) :
    slotFlags (saveContext r k) p fd = slotFlags k p fd := by
  rw [slotFlags, saveContext_eq, slotFlags]
  by_cases ha : pcbAddr p = saveAddr k
  · simp only [ha, Function.update_self, savedPcb]
  · simp only [Function.update_of_ne ha]

theorem deadClosed_saveContext (h : DeadClosed k) (r : Regs) : DeadClosed (saveContext r k) :=
  h.frame rfl fun p fd _ _ => slotFlags_saveContext r k p fd

theorem deadClosed_haltRelease (h : DeadClosed m.kernel) (hr : Represents m a) :
    DeadClosed (haltRelease m.kernel) := by
  intro p hp hdead fd hlo hhi
  obtain ⟨j, hj, hrun⟩ := hr.running
  obtain ⟨rest, hs⟩ := exists_rest hj
  have hpid := (running_pcb hr hs).2.1.pid
  have haddr : getPcbAddr m.kernel = pcbAddr j.proc.slot := by rw [hr.getPcbAddr_eq, hrun]
  rw [slotFlags, haltRelease_eq rfl, haddr]
  by_cases hps : p = j.proc.slot
  · have hclosed : minFdNum ≤ fd ∧ fd < maxFileNum := by
      simp only [minFdNum, maxFileNum]
      omega
    simp only [hps, Function.update_self, clearedPcb, if_pos hclosed]
  · have hne : pcbAddr p ≠ pcbAddr j.proc.slot := fun he => hps (pcbAddr_inj.mp he)
    rw [haltRelease_eq rfl, haddr] at hdead
    simp only [hpid, Function.update_of_ne hps] at hdead
    simp only [Function.update_of_ne hne]
    exact h p hp hdead fd hlo hhi

theorem deadClosed_setEntry (h : DeadClosed m.kernel) (hr : Represents m a) (fd : Int)
    (f : FileEntry → FileEntry) : DeadClosed (setEntry fd f m.kernel) := by
  refine h.frame rfl fun p fd' _ hdead => ?_
  obtain ⟨j, hj, hrun⟩ := hr.running
  have hbusy := hr.holds.busy _ j (mem_of_head? hj)
  have hne : pcbAddr p ≠ getPcbAddr m.kernel := by
    rw [hr.getPcbAddr_eq, hrun]
    intro he
    rw [pcbAddr_inj.mp he, hbusy] at hdead
    omega
  exact congrArg (fun p => (Pcb.fileArray p fd').flags) (Function.update_of_ne hne _ _)

theorem deadClosed_startsFrom (h : DeadClosed k) (hs : StartsFrom sys m e prog k i) :
    DeadClosed (step sys m e).kernel ∧ Fresh (step sys m e).kernel := by
  obtain ⟨⟨r, hstarted⟩, hi, hat⟩ := hs
  rw [hstarted.kernel]
  refine ⟨deadClosed_spawn h hi prog r, ?_⟩
  obtain ⟨hslot, hfree⟩ := freeSlot_some hi
  have hentry : ∀ fd, entryAt (spawn prog r k) fd = (newPcb prog r k i).fileArray fd := by
    intro fd
    have hown : getPcbAddr (spawn prog r k) = pcbAddr i := by
      rw [getPcbAddr, spawn_eq prog r hi]
      simp only [hat, Function.update_self]
    rw [entryAt, hown, spawn_pcb_new prog r hi]
  refine fun fd => ⟨?_, fun hlo hhi => ?_⟩
  · rintro (rfl | rfl) <;> rw [hentry] <;> simp [newPcb, stdEntry]
  · have h0 : fd ≠ 0 := by omega
    have h1 : fd ≠ 1 := by omega
    simp only [hentry, newPcb, Function.update_of_ne h0, Function.update_of_ne h1]
    exact h i hslot hfree fd hlo hhi

theorem deadClosed_step (h : DeadClosed m.kernel) (hm : InRun m) (hload : ShellLoads sys)
    (he : Regular sys m e) : DeadClosed (step sys m e).kernel ∧ StartsFresh sys m e := by
  have hsame : (step sys m e).calls = m.calls → StartsFresh sys m e :=
    fun hcalls hne => absurd hcalls hne
  obtain ⟨a, hr, hjobs⟩ := hm
  cases e with
  | tick t x =>
    have hn : m.kernel.terminalProcessInfo (nextTerminal m.kernel) ≠ unused := by
      obtain ⟨hn, -⟩ := next_facts hr
      rw [hr.holds.top _ hn]
      exact topSlot_ne_unused (hr.holds.slots _) (hjobs _ hn)
    obtain ⟨hu, -⟩ | ⟨-, hcalls, hk⟩ := tick_step sys t x m
    · exact absurd hu hn
    · rw [hk]
      exact ⟨deadClosed_saveContext h (entryRegs m t), hsame hcalls⟩
  | switchTerminal target => exact ⟨h, hsame rfl⟩
  | execute command x =>
    obtain ⟨prog, i, -, hs⟩ | ⟨-, hm⟩ := execute_startsFrom hr he
    · exact ⟨(deadClosed_startsFrom h hs).1, fun _ => (deadClosed_startsFrom h hs).2⟩
    · rw [hm]
      exact ⟨h, hsame (by rw [hm])⟩
  | halt status x =>
    have hrel := deadClosed_haltRelease h hr
    obtain ⟨prog, i, hs⟩ | ⟨hcalls, -⟩ := halt_startsFrom hr hload he
    · exact ⟨(deadClosed_startsFrom hrel hs).1, fun _ => (deadClosed_startsFrom hrel hs).2⟩
    · obtain ⟨-, prog, hs⟩ | ⟨-, hk⟩ := halt_step sys status x m
      · have := hs.calls
        omega
      · rw [hk]
        exact ⟨hrel, hsame hcalls⟩
  | openFile filename =>
    exact ⟨openCall_keeps h (deadClosed_setEntry h hr) sys filename, hsame rfl⟩
  | closeFile fd =>
    exact ⟨closeCall_keeps h (deadClosed_setEntry h hr) fd, hsame rfl⟩

theorem deadClosed_boot {n : Int} (h : DeadClosed m.kernel) (hboot : Booting n m) (h0 : 0 ≤ n)
    (hn : n < 3) (hload : ShellLoads sys) (t x : Trap) :
    DeadClosed (step sys m (.tick t x)).kernel ∧ StartsFresh sys m (.tick t x) := by
  obtain ⟨prog, hs⟩ := boot_startsFrom hboot h0 hn hload t x
  have hshell : DeadClosed (shellKernel (entryRegs m t) m.kernel) :=
    deadClosed_saveContext h (entryRegs m t)
  exact ⟨(deadClosed_startsFrom hshell hs).1, fun _ => (deadClosed_startsFrom hshell hs).2⟩

theorem along_clean (hload : ShellLoads sys) (hm : InRun m) (h : DeadClosed m.kernel)
    {es : List Event} (hes : Along (step sys) (Regular sys) m es) :
    Along (step sys) (fun m e => DeadClosed (step sys m e).kernel ∧ StartsFresh sys m e) m es :=
  along_of_invariant (J := fun m => InRun m ∧ DeadClosed m.kernel) (C := Regular sys)
    (fun _ _ hj he => ⟨inRun_step hload hj.1 he, (deadClosed_step hj.2 hj.1 hload he).1⟩)
    (fun _ _ hj he => deadClosed_step hj.2 hj.1 hload he) ⟨hm, h⟩ hes

/-- From closed descriptors at boot, in every state of the run the slots without a process have
descriptors 2 to 7 closed, and every process starts with descriptors 0 and 1 only. -/
theorem descriptors_not_inherited (hload : ShellLoads sys) (k : Kernel)
    (kstack : Int → Suspended) (hzero : ∀ p, IsSlot p → ∀ fd, 2 ≤ fd → fd ≤ 7 → slotFlags k p fd = 0)
    (t₀ x₀ t₁ x₁ t₂ x₂ : Trap) (es : List Event)
    (hes : Along (step sys) (Regular sys)
      (run (step sys) (initial k kstack) [.tick t₀ x₀, .tick t₁ x₁, .tick t₂ x₂]) es) :
    (∀ pre, pre <+: [.tick t₀ x₀, .tick t₁ x₁, .tick t₂ x₂] ++ es →
      DeadClosed (run (step sys) (initial k kstack) pre).kernel) ∧
    Along (step sys) (StartsFresh sys) (initial k kstack)
      ([.tick t₀ x₀, .tick t₁ x₁, .tick t₂ x₂] ++ es) := by
  have hstart : DeadClosed (initial k kstack).kernel := fun p hp _ fd hlo hhi => hzero p hp fd hlo hhi
  have h0 := booting_initial k kstack
  have h1 := booting_tick h0 (Int.le_refl _) (by omega) hload t₀ x₀
  have h2 := booting_tick h1 (by omega) (by omega) hload t₁ x₁
  have hc0 := deadClosed_boot hstart h0 (Int.le_refl _) (by omega) hload t₀ x₀
  have hc1 := deadClosed_boot hc0.1 h1 (by omega) (by omega) hload t₁ x₁
  have hc2 := deadClosed_boot hc1.1 h2 (by omega) (by omega) hload t₂ x₂
  have hrun := along_clean hload (bootShells_inRun hload ⟨k, kstack, _, _, _, _, _, _, rfl⟩) hc2.1 hes
  have hticks : Along (step sys)
      (fun m e => DeadClosed (step sys m e).kernel ∧ StartsFresh sys m e) (initial k kstack)
      [.tick t₀ x₀, .tick t₁ x₁, .tick t₂ x₂] := ⟨hc0, hc1, hc2, trivial⟩
  have hall := (along_append _ _ es).mpr ⟨hticks, hrun⟩
  exact ⟨states_of_along (P := fun m : Machine => DeadClosed m.kernel) hstart (along_and.mp hall).1,
    (along_and.mp hall).2⟩

theorem descriptors_not_inherited_tiny :
    (∀ pre, pre <+: [tinyTick, tinyTick, tinyTick] ++ tinyRun →
      DeadClosed (run (step tinySystem) tinyInitial pre).kernel) ∧
    Along (step tinySystem) (StartsFresh tinySystem) tinyInitial
      ([tinyTick, tinyTick, tinyTick] ++ tinyRun) :=
  descriptors_not_inherited tinySystem_shellLoads tinyKernel _ (fun _ _ _ _ _ => rfl) _ _ _ _ _ _
    tinyRun tinyRun_regular

end RedstoneOS.DescriptorInheritance
