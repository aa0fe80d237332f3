import RedstoneOS.ExecuteChecks
import RedstoneOS.SessionSteps
import Mathlib.Logic.Relation

namespace RedstoneOS.SessionRuns

open KernelState Execute Schedule ExecuteEffects KernelRuns ExecuteChecks Sessions SessionSteps
open Library.Runs

variable {sys : System} {m : Machine} {a : Session} {es : List Event}

/-- The assumption on runs: a process starts in a free slot and while the displayed terminal is
the scheduled one. -/
def Regular (sys : System) (m : Machine) (e : Event) : Prop :=
  FindsSlot sys m e ∧ AtDisplayed sys m e

/-- A run of the kernel is a run of the abstract sessions. -/
theorem run_refines (h : Represents m a) (hload : ShellLoads sys)
    (hes : Along (step sys) (fun m e => Regular sys m e ∧ StartsShell m e) m es) :
    ∃ a', Relation.ReflTransGen SessionStep a a' ∧ Represents (run (step sys) m es) a' := by
  refine run_invariant (J := fun m => ∃ a', Relation.ReflTransGen SessionStep a a' ∧ Represents m a')
    ?_ ⟨a, .refl, h⟩ hes
  rintro m e ⟨a', hrun, h'⟩ ⟨⟨hfind, hat⟩, hstart⟩
  obtain ⟨a'', hstep, h''⟩ := step_refines h' hload hfind hat hstart
  exact ⟨a'', hrun.tail hstep, h''⟩

def InRun (m : Machine) : Prop := ∃ a, Represents m a ∧ ∀ t, IsTerminal t → a.stack t ≠ []

theorem topSlot_ne_unused {l : List Job} (hl : ∀ j ∈ l, IsSlot j.proc.slot) (h : l ≠ []) :
    topSlot l ≠ unused := fun he => h (topSlot_eq_unused hl he)

theorem startsShell_of_inRun (h : InRun m) (e : Event) : StartsShell m e := by
  cases e with
  | tick t x =>
    obtain ⟨a, hr, hjobs⟩ := h
    obtain ⟨hn, -⟩ := next_facts hr
    intro htpi
    rw [hr.holds.top _ hn] at htpi
    exact absurd htpi (topSlot_ne_unused (hr.holds.slots _) (hjobs _ hn))
  | switchTerminal => trivial
  | execute => trivial
  | halt => trivial
  | openFile => trivial
  | closeFile => trivial

theorem inRun_step (hload : ShellLoads sys) (h : InRun m) {e : Event} (he : Regular sys m e) :
    InRun (step sys m e) := by
  have hstart := startsShell_of_inRun h e
  obtain ⟨a, hr, hjobs⟩ := h
  obtain ⟨a', hstep, hr'⟩ := step_refines hr hload he.1 he.2 hstart
  exact ⟨a', hr', fun t ht => hstep.keeps_jobs (hjobs t ht)⟩

theorem inRun_run (hload : ShellLoads sys) (h : InRun m)
    (hes : Along (step sys) (Regular sys) m es) : InRun (run (step sys) m es) :=
  run_invariant (J := InRun) (fun _ _ hm he => inRun_step hload hm he) h hes

/-- The kernel after the first `n` ticks, each of which has started a boot shell. -/
structure Booting (n : Int) (m : Machine) : Prop where
  current : m.kernel.currentTerminalId = n - 1
  next : m.kernel.nextScheTerminal ≤ max 0 (n - 1)
  pid : m.kernel.pid = n - 1
  shells : ∀ t, 0 ≤ t → t < n → m.kernel.terminalProcessInfo t = t
  idle : ∀ t, n ≤ t → t < 3 → m.kernel.terminalProcessInfo t = unused
  busy : ∀ p, 0 ≤ p → p < n → m.kernel.processState p = 1
  free : ∀ p, n ≤ p → p < 7 → m.kernel.processState p = 0

theorem booting_initial (k : Kernel) (kstack : Int → Suspended) :
    Booting 0 (initial k kstack) := by
  refine ⟨rfl, show (0 : Int) ≤ max 0 (0 - 1) by decide, rfl, fun t h0 hn => by omega, fun t h0 hn => ?_, fun p h0 hn => by omega,
    fun p h0 hn => ?_⟩
  · have ht : IsTerminal t := ⟨h0, hn⟩
    simp only [initial, bootKernel, initializeSchedule, if_pos ht]
  · have hp : IsSlot p := ⟨h0, hn⟩
    simp only [initial, bootKernel, if_pos hp]

variable {n : Int}

theorem booting_nextTerminal (h : Booting n m) (hn : n < 3) : nextTerminal m.kernel = n := by
  have hle := h.next
  simp only [nextTerminal, terminalMaximum, h.current]
  rw [if_neg (by omega)]
  omega

theorem booting_unused (h : Booting n m) (hn : n < 3) :
    m.kernel.terminalProcessInfo (nextTerminal m.kernel) = unused := by
  rw [booting_nextTerminal h hn]
  exact h.idle n (Int.le_refl _) hn

theorem booting_freeSlot (h : Booting n m) (h0 : 0 ≤ n) (hn : n < 3) :
    freeSlot m.kernel.processState = some n := by
  refine freeSlot_first ⟨h0, by omega⟩ (h.free n (Int.le_refl _) (by omega)) fun p hp0 hpn => ?_
  rw [h.busy p hp0 hpn]
  decide

theorem booting_startsShell (h : Booting n m) (h0 : 0 ≤ n) (hn : n < 3) (t x : Trap) :
    StartsShell m (.tick t x) := by
  refine fun _ => ⟨?_, n, ⟨h0, by omega⟩, h.free n (Int.le_refl _) (by omega)⟩
  rw [h.pid]
  omega

theorem booting_tick (h : Booting n m) (h0 : 0 ≤ n) (hn : n < 3) (hload : ShellLoads sys)
    (t x : Trap) : Booting (n + 1) (step sys m (.tick t x)) := by
  obtain ⟨prog, hprog⟩ := hload x.uninit
  have hpid : m.kernel.pid ≠ 5 := by
    rw [h.pid]
    omega
  have hi : freeSlot (startKernel t m).processState = some n := booting_freeSlot h h0 hn
  have hnext := booting_nextTerminal h hn
  rw [step, tickStep_start t x (booting_unused h hn) hprog hpid, spawn_eq prog _ hi]
  constructor
  · change nextTerminal m.kernel = _
    omega
  · change nextTerminal m.kernel ≤ _
    omega
  · change n = _
    omega
  · intro u hu0 hun
    change Function.update m.kernel.terminalProcessInfo (nextTerminal m.kernel) n u = u
    rw [hnext]
    by_cases hu : u = n
    · rw [hu, Function.update_self]
    · rw [Function.update_of_ne hu, h.shells u hu0 (by omega)]
  · intro u hnu hu3
    change Function.update m.kernel.terminalProcessInfo (nextTerminal m.kernel) n u = unused
    rw [hnext, Function.update_of_ne (by omega), h.idle u (by omega) hu3]
  · intro p hp0 hpn
    change Function.update m.kernel.processState n 1 p = 1
    by_cases hp : p = n
    · rw [hp, Function.update_self]
    · rw [Function.update_of_ne hp, h.busy p hp0 (by omega)]
  · intro p hnp hp7
    change Function.update m.kernel.processState n 1 p = 0
    rw [Function.update_of_ne (by omega), h.free p (by omega) hp7]

theorem holds_nil (htpi : ∀ t, IsTerminal t → m.kernel.terminalProcessInfo t = unused)
    (hps : ∀ p, IsSlot p → m.kernel.processState p = 0) (hlog : LogMatches m.log m.calls) :
    Holds m fun _ => [] where
  terminals t j hj := by simp at hj
  top t ht := htpi t ht
  linked _ := trivial
  slots t j hj := by simp at hj
  apart t j hj := by simp at hj
  busy t j hj := by simp at hj
  free p hp _ := hps p hp
  callsApart t j hj := by simp at hj
  unreturned t j hj := by simp at hj
  log := hlog

/-- The first tick starts the scheduler: from then on the kernel holds sessions. -/
theorem first_tick (h : Booting 0 m) (hlog : m.log = []) (hload : ShellLoads sys) (t x : Trap) :
    ∃ a, Represents (step sys m (.tick t x)) a := by
  obtain ⟨prog, hprog⟩ := hload x.uninit
  have hpid : m.kernel.pid ≠ 5 := by
    rw [h.pid]
    omega
  have hnext := booting_nextTerminal h (by omega)
  have hi : freeSlot (startKernel t m).processState = some 0 :=
    booting_freeSlot h (Int.le_refl _) (by omega)
  have hempty : Holds { interrupted t m with kernel := startKernel t m } fun _ => [] := by
    refine holds_nil (fun u hu => h.idle u hu.1 hu.2) (fun p hp => h.free p hp.1 hp.2) ?_
    simp only [interrupted, hlog]
    exact ⟨⟨trivial, trivial⟩, by simp [calledCalls, calledCall],
      by simp [returnedCalls, returnedCall]⟩
  have henter := represents_enter (t := nextTerminal m.kernel) hempty hi ?_ rfl rfl rfl prog
    (entryRegs m x) none ⟨m.running, none⟩ (by simp) (by simp) (by simp)
  · rw [step, tickStep_start t x (booting_unused h (by omega)) hprog hpid]
    exact ⟨_, henter⟩
  · rw [hnext]
    decide

theorem bootShells_booting (hload : ShellLoads sys) (h : BootShells sys m) :
    Booting 3 m ∧ InRun m := by
  obtain ⟨k, kstack, t₀, x₀, t₁, x₁, t₂, x₂, rfl⟩ := h
  have h0 := booting_initial k kstack
  have h1 := booting_tick h0 (Int.le_refl _) (by omega) hload t₀ x₀
  have h2 := booting_tick h1 (by omega) (by omega) hload t₁ x₁
  have h3 := booting_tick h2 (by omega) (by omega) hload t₂ x₂
  obtain ⟨a₁, hr₁⟩ := first_tick h0 rfl hload t₀ x₀
  obtain ⟨a₂, -, hr₂⟩ := step_refines hr₁ hload (e := .tick t₁ x₁) trivial trivial
    (booting_startsShell h1 (by omega) (by omega) t₁ x₁)
  obtain ⟨a₃, -, hr₃⟩ := step_refines hr₂ hload (e := .tick t₂ x₂) trivial trivial
    (booting_startsShell h2 (by omega) (by omega) t₂ x₂)
  refine ⟨h3, a₃, hr₃, fun t ht hs => ?_⟩
  have htop := hr₃.holds.top t ht
  rw [hs, h3.shells t ht.1 ht.2] at htop
  simp only [topSlot] at htop
  have ht0 := ht.1
  omega

theorem bootShells_inRun (hload : ShellLoads sys) (h : BootShells sys m) : InRun m :=
  (bootShells_booting hload h).2

def tinyRun : List Event :=
  [.switchTerminal altF3, tinyExecute, tinyTick, tinyTick, tinyTick, .halt 7 tinyTrap]

theorem tinyRun_regular : Along (step tinySystem) (Regular tinySystem) tinyBoot tinyRun :=
  ⟨⟨trivial, trivial⟩, ⟨fun _ => ⟨3, by decide, by decide⟩, fun _ => by decide⟩,
    ⟨trivial, trivial⟩, ⟨trivial, trivial⟩, ⟨trivial, trivial⟩, ⟨trivial, fun _ => by decide⟩,
    trivial⟩

end RedstoneOS.SessionRuns
