import RedstoneOS.ExecuteChecks
import RedstoneOS.SessionRuns

namespace RedstoneOS.ParentChains

open KernelState Execute ExecuteEffects KernelRuns Sessions SessionSteps SessionRuns ExecuteChecks
open Library.Runs Library.ParentChain

variable {sys : System} {m : Machine} {a : Session} {es : List Event}
  {stack : Int → List Job} {t p : Int} {l : List Int}

def parentOf (k : Kernel) (p : Int) : Int := (k.pcbs (pcbAddr p)).parent

/-- Following the parents from a terminal's process visits the listed slots and stops. -/
def OnTerminal (k : Kernel) (t : Int) (l : List Int) : Prop :=
  Chain (parentOf k) (-1) (k.terminalProcessInfo t) l

def Live (k : Kernel) (p : Int) : Prop := ∃ t l, IsTerminal t ∧ OnTerminal k t l ∧ p ∈ l

structure ThreeChains (k : Kernel) : Prop where
  stops : ∀ t, IsTerminal t → ∃ l, OnTerminal k t l ∧ l ≠ [] ∧
    (parentOf k)^[l.length] (k.terminalProcessInfo t) = -1
  live : ∀ t l, IsTerminal t → OnTerminal k t l → ∀ p ∈ l,
    IsSlot p ∧ k.processState p = 1 ∧ (k.pcbs (pcbAddr p)).PID = p
  disjoint : ∀ t l t' l', IsTerminal t → OnTerminal k t l → IsTerminal t' → OnTerminal k t' l' →
    ∀ p ∈ l, p ∈ l' → t = t'
  covered : ∀ p, IsSlot p → k.processState p = 1 → Live k p

theorem onTerminal_iff (h : Holds m stack) (ht : IsTerminal t) :
    OnTerminal m.kernel t l ↔ l = (stack t).map fun j => j.proc.slot := by
  constructor
  · exact fun hl => chain_unique hl (h.chain ht)
  · rintro rfl
    exact h.chain ht

theorem live_iff (h : Holds m stack) : Live m.kernel p ↔ ∃ t, ∃ j ∈ stack t, j.proc.slot = p := by
  constructor
  · rintro ⟨t, l, ht, hl, hp⟩
    rw [onTerminal_iff h ht] at hl
    subst hl
    obtain ⟨j, hj, rfl⟩ := List.mem_map.mp hp
    exact ⟨t, j, hj, rfl⟩
  · rintro ⟨t, j, hj, rfl⟩
    exact ⟨t, _, h.terminals t j hj, h.chain (h.terminals t j hj), List.mem_map_of_mem hj⟩

theorem threeChains_of_holds (h : Holds m stack) (hjobs : ∀ t, IsTerminal t → stack t ≠ []) :
    ThreeChains m.kernel where
  stops t ht := by
    have hc := h.chain ht
    exact ⟨_, hc, by simpa using hjobs t ht, chain_iterate hc⟩
  live t l ht hl p hp := by
    rw [onTerminal_iff h ht] at hl
    subst hl
    obtain ⟨j, hj, rfl⟩ := List.mem_map.mp hp
    exact ⟨h.slots t j hj, h.busy t j hj, (h.linked t).pid hj⟩
  disjoint t l t' l' ht hl ht' hl' p hp hp' := by
    rw [onTerminal_iff h ht] at hl
    rw [onTerminal_iff h ht'] at hl'
    subst hl hl'
    obtain ⟨j, hj, rfl⟩ := List.mem_map.mp hp
    obtain ⟨j', hj', he⟩ := List.mem_map.mp hp'
    exact h.apart t j hj t' j' hj' he.symm
  covered p hp hbusy := by
    rw [live_iff h]
    by_contra hn
    have hfree := h.free p hp fun t j hj he => hn ⟨t, j, hj, he⟩
    omega

theorem root_stack (h : Represents m a) (hroot : parentOf m.kernel m.running.slot = -1) :
    ∃ j, a.stack a.current = [j] := by
  obtain ⟨j, hj, -⟩ := h.running
  obtain ⟨rest, hs⟩ := exists_rest hj
  rw [parentOf, ← h.getPcbAddr_eq, running_parent h hs] at hroot
  have hslots : ∀ c ∈ rest, IsSlot c.proc.slot :=
    fun c hc => h.holds.slots a.current c (by rw [hs]; exact List.mem_cons_of_mem _ hc)
  exact ⟨j, by rw [hs, topSlot_eq_unused hslots hroot]⟩

theorem halt_restarts (h : InRun m) (hload : ShellLoads sys) {status : UInt8} {x : Trap}
    (hat : AtDisplayed sys m (.halt status x))
    (hroot : parentOf m.kernel m.running.slot = -1) :
    ∃ i, (step sys m (.halt status x)).running = ⟨i, m.calls + 1⟩ ∧
      (step sys m (.halt status x)).kernel.currentTerminalId = m.kernel.currentTerminalId ∧
      OnTerminal (step sys m (.halt status x)).kernel m.kernel.currentTerminalId [i] := by
  obtain ⟨a, hr, -⟩ := h
  obtain ⟨j, hs⟩ := root_stack hr hroot
  obtain ⟨i, hr'⟩ := halt_root_represents hr hload hat hs
  obtain ⟨c, hc, hrun⟩ := hr'.running
  simp only [Function.update_self, List.head?_cons, Option.mem_some_iff] at hc
  subst hc
  refine ⟨i, hrun, ?_, ?_⟩
  · rw [hr'.current, hr.current]
  · rw [hr.current, onTerminal_iff hr'.holds hr.terminal]
    simp only [Function.update_self, List.map_cons, List.map_nil]

/-- Over every run from the boot shells the processes form three disjoint chains that cover
the occupied slots, and a root shell that halts is replaced on its own terminal. -/
theorem chains_of_run (hload : ShellLoads sys) (hboot : BootShells sys m)
    (hes : Along (step sys) (Regular sys) m es) :
    ThreeChains (run (step sys) m es).kernel ∧
      ∀ status x, AtDisplayed sys (run (step sys) m es) (.halt status x) →
        parentOf (run (step sys) m es).kernel (run (step sys) m es).running.slot = -1 →
        ∃ i, (run (step sys) m (es ++ [.halt status x])).running =
            ⟨i, (run (step sys) m es).calls + 1⟩ ∧
          (run (step sys) m (es ++ [.halt status x])).kernel.currentTerminalId =
            (run (step sys) m es).kernel.currentTerminalId ∧
          OnTerminal (run (step sys) m (es ++ [.halt status x])).kernel
            (run (step sys) m es).kernel.currentTerminalId [i] := by
  have hrun := inRun_run hload (bootShells_inRun hload hboot) hes
  refine ⟨?_, fun status x hat hroot => ?_⟩
  · obtain ⟨a, hr, hjobs⟩ := hrun
    exact threeChains_of_holds hr.holds hjobs
  · rw [run_concat]
    exact halt_restarts hrun hload hat hroot

theorem chains_of_run_tiny : ThreeChains (run (step tinySystem) tinyBoot tinyRun).kernel :=
  (chains_of_run tinySystem_shellLoads tinyBoot_bootShells tinyRun_regular).1

end RedstoneOS.ParentChains
