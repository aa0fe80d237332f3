import RedstoneOS.Outcomes
import RedstoneOS.SessionRuns

namespace RedstoneOS.ProcessStarts

open KernelState Execute Schedule ExecuteEffects Syscalls KernelRuns Sessions SessionSteps
open SessionRuns Outcomes Library.Runs

variable {sys : System} {m : Machine} {a a' : Session} {stack : Int → List Job} {e : Event}
  {j : Job} {t : Int}

theorem SessionStep.jobs (h : SessionStep a a') (hj : j ∈ a'.stack t) :
    j ∈ a.stack t ∨ j ∈ (a'.stack a'.current).head? := by
  cases h with
  | stay => exact Or.inl hj
  | resume => exact Or.inl hj
  | start u c hu =>
    obtain ⟨rfl, hc⟩ | ⟨-, hold⟩ := mem_update.mp hj
    · rw [List.mem_singleton.mp hc]
      exact Or.inr (by simp)
    · exact Or.inl hold
  | push c =>
    obtain ⟨rfl, hc⟩ | ⟨-, hold⟩ := mem_update.mp hj
    · obtain rfl | hold := List.mem_cons.mp hc
      · exact Or.inr (by simp)
      · exact Or.inl hold
    · exact Or.inl hold
  | pop c c' rest hs =>
    obtain ⟨rfl, hc⟩ | ⟨-, hold⟩ := mem_update.mp hj
    · exact Or.inl (hs ▸ List.mem_cons_of_mem _ hc)
    · exact Or.inl hold
  | restart c c' hs =>
    obtain ⟨rfl, hc⟩ | ⟨-, hold⟩ := mem_update.mp hj
    · rw [List.mem_singleton.mp hc]
      exact Or.inr (by simp)
    · exact Or.inl hold

theorem slot_inj (h : Holds m stack) {u : Int} {c : Job} (hj : j ∈ stack t) (hc : c ∈ stack u)
    (hslot : j.proc.slot = c.proc.slot) : j = c := by
  obtain rfl := h.apart t j hj u c hc hslot
  exact List.inj_on_of_nodup_map (h.nodup t) hj hc hslot

/-- An event starts a process in a free slot of its own terminal, from the kernel `k`. -/
structure StartsFrom (sys : System) (m : Machine) (e : Event) (prog : Program) (k : Kernel)
    (i : Int) : Prop where
  started : ∃ r, Started sys m e prog r k
  slot : freeSlot k.processState = some i
  terminal : attachTerminal k = k.currentTerminalId

theorem StartsFrom.running {prog : Program} {k : Kernel} {i : Int}
    (h : StartsFrom sys m e prog k i) : (step sys m e).running = ⟨i, m.calls + 1⟩ := by
  obtain ⟨r, hs⟩ := h.started
  rw [hs.running, spawn_eq prog r h.slot]

theorem execute_startsFrom (h : Represents m a) {command : Option (List UInt8)} {x : Trap}
    (he : Regular sys m (.execute command x)) :
    (∃ prog i, executeChecks sys command x.uninit = some prog ∧
      StartsFrom sys m (.execute command x) prog m.kernel i) ∨
    (¬ Accepted sys command x m ∧ step sys m (.execute command x) = m) := by
  obtain ⟨prog, hprog, hpid, hs⟩ | ⟨hrej, hm⟩ := execute_step sys command x m
  · obtain ⟨p, hp, hfree⟩ := he.1 ⟨⟨prog, hprog⟩, hpid⟩
    obtain ⟨i, hi⟩ := exists_freeSlot hp hfree
    exact Or.inl ⟨prog, i, hprog, ⟨_, hs⟩, hi,
      (attachTerminal_eq h).trans (he.2 ⟨⟨prog, hprog⟩, hpid⟩)⟩
  · exact Or.inr ⟨fun ⟨⟨prog, hprog⟩, hpid⟩ => hpid (hrej prog hprog), hm⟩

theorem halt_startsFrom (h : Represents m a) (hload : ShellLoads sys) {status : UInt8} {x : Trap}
    (he : Regular sys m (.halt status x)) :
    (∃ prog i, StartsFrom sys m (.halt status x) prog (haltRelease m.kernel) i) ∨
    ((step sys m (.halt status x)).calls = m.calls ∧
      ∃ c, c ∈ a.stack a.current ∧ (step sys m (.halt status x)).running = c.proc) := by
  obtain ⟨j, hj, -⟩ := h.running
  obtain ⟨rest, hs⟩ := exists_rest hj
  cases rest with
  | nil =>
    have hparent := running_parent h hs
    obtain ⟨i, hi⟩ := release_freeSlot h
    obtain ⟨prog, hprog⟩ := hload x.uninit
    have hstarted : Started sys m (.halt status x) prog (entryRegs m x) (haltRelease m.kernel) := by
      constructor <;>
        simp only [step, haltStep, halt_root sys status _ hparent hprog, enterProcess]
    have hat : attachTerminal (haltRelease m.kernel) = attachTerminal m.kernel := by
      rw [haltRelease_eq rfl]
      rfl
    refine Or.inl ⟨prog, i, ⟨_, hstarted⟩, hi, ?_⟩
    rw [hat, attachTerminal_eq h, he.2 hparent, haltRelease_eq rfl]
  | cons c rest =>
    refine Or.inr ⟨?_, c, by rw [hs]; simp, ?_⟩
    · rw [step, haltStep_parent h status x hs]
    · rw [step, haltStep_parent h status x hs]

/-- A step of a regular run starts a process or gives the processor to an old one. -/
theorem starts_or_keeps (h : Represents m a) (hjobs : ∀ t, IsTerminal t → a.stack t ≠ [])
    (hload : ShellLoads sys) (he : Regular sys m e) :
    (∃ prog k i, (k = m.kernel ∨ k = haltRelease m.kernel) ∧ StartsFrom sys m e prog k i) ∨
    ((step sys m e).calls = m.calls ∧
      ∃ t c, c ∈ a.stack t ∧ (step sys m e).running = c.proc) := by
  have hkept : ∃ t c, c ∈ a.stack t ∧ m.running = c.proc := by
    obtain ⟨c, hc, hr⟩ := h.running
    exact ⟨a.current, c, mem_of_head? hc, hr⟩
  cases e with
  | tick t x =>
    obtain ⟨hn, -⟩ := next_facts h
    obtain ⟨c, rest, hs⟩ := List.exists_cons_of_ne_nil (hjobs _ hn)
    have hc : c ∈ (a.stack (nextTerminal m.kernel)).head? := by simp [hs]
    refine Or.inr ⟨?_, _, c, mem_of_head? hc, ?_⟩
    · rw [step, tickStep_resume h t x hc]
      rfl
    · rw [step, tickStep_resume h t x hc]
  | switchTerminal target => exact Or.inr ⟨rfl, hkept⟩
  | execute command x =>
    obtain ⟨prog, i, -, hs⟩ | ⟨-, hm⟩ := execute_startsFrom h he
    · exact Or.inl ⟨prog, _, i, Or.inl rfl, hs⟩
    · rw [hm]
      exact Or.inr ⟨rfl, hkept⟩
  | halt status x =>
    obtain ⟨prog, i, hs⟩ | ⟨hcalls, c, hc, hr⟩ := halt_startsFrom h hload he
    · exact Or.inl ⟨prog, _, i, Or.inr rfl, hs⟩
    · exact Or.inr ⟨hcalls, _, c, hc, hr⟩
  | openFile filename => exact Or.inr ⟨rfl, hkept⟩
  | closeFile fd => exact Or.inr ⟨rfl, hkept⟩

theorem boot_startsFrom {n : Int} (h : Booting n m) (h0 : 0 ≤ n) (hn : n < 3)
    (hload : ShellLoads sys) (t x : Trap) :
    ∃ prog, StartsFrom sys m (.tick t x) prog (shellKernel (entryRegs m t) m.kernel) n := by
  obtain ⟨prog, hprog⟩ := hload x.uninit
  have hpid : m.kernel.pid ≠ 5 := by
    rw [h.pid]
    omega
  refine ⟨prog, ⟨entryRegs m x, ?_⟩, booting_freeSlot h h0 hn, rfl⟩
  have hstep := tickStep_start t x (booting_unused h hn) hprog hpid
  exact ⟨by rw [step, hstep]; rfl, by rw [step, hstep]; rfl, by rw [step, hstep]; rfl⟩

end RedstoneOS.ProcessStarts
