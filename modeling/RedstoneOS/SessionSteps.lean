import RedstoneOS.Sessions

namespace RedstoneOS.SessionSteps

open KernelState Execute Schedule ExecuteEffects Syscalls KernelRuns Sessions Library.Runs

variable {sys : System} {m m' : Machine} {a : Session} {stack : Int → List Job} {t : Int}
  {j : Job}

def Accepted (sys : System) (command : Option (List UInt8)) (x : Trap) (m : Machine) : Prop :=
  (∃ prog, executeChecks sys command x.uninit = some prog) ∧ m.kernel.pid ≠ 5

def FindsSlot (sys : System) (m : Machine) : Event → Prop
  | .execute command x => Accepted sys command x m → ∃ i, IsSlot i ∧ m.kernel.processState i = 0
  | _ => True

/-- A process is started only while the displayed terminal is the scheduled one. A `halt` of
a process without parent starts one too. -/
def AtDisplayed (sys : System) (m : Machine) : Event → Prop
  | .execute command x =>
      Accepted sys command x m → m.kernel.terminalId = m.kernel.currentTerminalId
  | .halt _ _ => (m.kernel.pcbs (getPcbAddr m.kernel)).parent = -1 →
      m.kernel.terminalId = m.kernel.currentTerminalId
  | _ => True

/-- A tick that finds no process on the next terminal can start a shell there. -/
def StartsShell (m : Machine) : Event → Prop
  | .tick _ _ => m.kernel.terminalProcessInfo (nextTerminal m.kernel) = unused →
      m.kernel.pid ≠ 5 ∧ ∃ i, IsSlot i ∧ m.kernel.processState i = 0
  | _ => True

/-- A change of the kernel that the scheduler does not see. -/
structure Quiet (k k' : Kernel) : Prop where
  pid : k'.pid = k.pid
  processState : k'.processState = k.processState
  terminalProcessInfo : k'.terminalProcessInfo = k.terminalProcessInfo
  currentTerminalId : k'.currentTerminalId = k.currentTerminalId
  nextScheTerminal : k'.nextScheTerminal = k.nextScheTerminal
  scheReady : k'.scheReady = k.scheReady
  page : k'.pdArray userPage = k.pdArray userPage
  tss : k'.tss = k.tss
  links : ∀ addr, SameLinks (k.pcbs addr) (k'.pcbs addr)
  scheEsp : ∀ addr, (k'.pcbs addr).scheEsp = (k.pcbs addr).scheEsp
  scheEbp : ∀ addr, (k'.pcbs addr).scheEbp = (k.pcbs addr).scheEbp

theorem quiet_refl (k : Kernel) : Quiet k k :=
  ⟨rfl, rfl, rfl, rfl, rfl, rfl, rfl, rfl, fun _ => .refl _, fun _ => rfl, fun _ => rfl⟩

theorem quiet_switchTerminal (target : Fin 3) (k : Kernel) : Quiet k (switchTerminal target k) :=
  ⟨rfl, rfl, rfl, rfl, rfl, rfl, rfl, rfl, fun _ => .refl _, fun _ => rfl, fun _ => rfl⟩

theorem quiet_setEntry (fd : Int) (f : FileEntry → FileEntry) (k : Kernel) :
    Quiet k (setEntry fd f k) := by
  have hpcb : ∀ addr, (setEntry fd f k).pcbs addr = k.pcbs addr ∨
      (setEntry fd f k).pcbs addr = setFile fd f (k.pcbs addr) := by
    intro addr
    by_cases ha : addr = getPcbAddr k
    · subst ha
      exact Or.inr (Function.update_self _ _ _)
    · exact Or.inl (Function.update_of_ne ha _ _)
  refine ⟨rfl, rfl, rfl, rfl, rfl, rfl, rfl, rfl, fun addr => ?_, fun addr => ?_, fun addr => ?_⟩
  · rcases hpcb addr with h | h <;> rw [h]
    · exact .refl _
    · exact ⟨rfl, rfl, rfl, rfl, rfl, rfl⟩
  · rcases hpcb addr with h | h <;> simp only [h, setFile]
  · rcases hpcb addr with h | h <;> simp only [h, setFile]

theorem quiet_openCall (sys : System) (filename : Option (List UInt8)) (k : Kernel) :
    Quiet k (openCall sys filename k).2 :=
  openCall_keeps (quiet_refl k) (fun fd f => quiet_setEntry fd f k) sys filename

theorem quiet_closeCall (fd : Int) (k : Kernel) : Quiet k (closeCall fd k).2 :=
  closeCall_keeps (quiet_refl k) (fun fd f => quiet_setEntry fd f k) fd

theorem represents_quiet {k : Kernel} (h : Represents m a) (hq : Quiet m.kernel k) :
    Represents { m with kernel := k } a where
  holds := h.holds.frame hq.terminalProcessInfo hq.processState (fun _ _ _ => hq.links _)
    (fun _ _ _ => rfl) rfl (fun _ he => he) (fun t j hj => (h.holds.unreturned t j hj).2)
    h.holds.log
  terminal := h.terminal
  current := hq.currentTerminalId.trans h.current
  next := hq.nextScheTerminal.trans h.next
  ready := hq.scheReady.trans h.ready
  pid := by
    change k.pid ≠ -1
    rw [hq.pid]
    exact h.pid
  running := h.running
  page := hq.page.trans h.page
  esp0 := by
    change k.tss.esp0 = _
    rw [hq.tss]
    exact h.esp0
  waiting t ht j hj := (h.waiting t ht j hj).frame rfl (hq.scheEsp _) (hq.scheEbp _) rfl
  lastCall := by
    obtain ⟨t, ht, j, hj, hpid⟩ := h.lastCall
    exact ⟨t, ht, j, hj, hq.pid.trans hpid⟩

theorem attachTerminal_eq (h : Represents m a) : attachTerminal m.kernel = m.kernel.terminalId := by
  rw [attachTerminal, h.ready]
  rfl

theorem execute_refines (h : Represents m a) {command : Option (List UInt8)} {x : Trap}
    (hfind : FindsSlot sys m (.execute command x)) (hat : AtDisplayed sys m (.execute command x)) :
    ∃ a', SessionStep a a' ∧ Represents (step sys m (.execute command x)) a' := by
  by_cases hacc : Accepted sys command x m
  · obtain ⟨⟨prog, hprog⟩, hpid⟩ := hacc
    obtain ⟨p, hp, hfree⟩ := hfind ⟨⟨prog, hprog⟩, hpid⟩
    obtain ⟨i, hi⟩ := exists_freeSlot hp hfree
    have hterm : attachTerminal m.kernel = a.current := by
      rw [attachTerminal_eq h, hat ⟨⟨prog, hprog⟩, hpid⟩, h.current]
    obtain ⟨c, hc, hr⟩ := h.running
    refine ⟨_, .push a ⟨⟨i, m.calls + 1⟩, entryRegs m x⟩, ?_⟩
    have henter := represents_enter h.holds hi h.terminal h.current h.next hterm prog
      (entryRegs m x) (some m.running) ⟨m.running, some (m.calls + 1)⟩ ?_ ?_ ?_
    · simpa only [step, executeStep, execute_accepted sys _ hprog hpid, hterm] using henter
    · intro c' hc'
      obtain rfl : c' = c := Option.mem_unique hc' hc
      refine ⟨by rw [hr], by rw [hr], ?_, ?_⟩
      · rw [h.entry_slot, hr]
      · rw [h.esp0, hr]
    · intro u j hj
      rw [h.entry_slot]
      exact h.tail_slot hj
    · intro u hu j hj
      refine ⟨h.waiting u hu j hj, fun he => ?_⟩
      rw [h.entry_slot] at he
      exact absurd he (h.other_slot hu (mem_of_head? hj))
  · have hrej : ∀ prog, executeChecks sys command x.uninit = some prog → m.kernel.pid = 5 := by
      intro prog hprog
      by_contra hpid
      exact hacc ⟨⟨prog, hprog⟩, hpid⟩
    refine ⟨a, .stay a, ?_⟩
    simpa only [step, executeStep, execute_rejected sys _ hrej] using h

theorem running_pcb (h : Represents m a) {rest : List Job} (hs : a.stack a.current = j :: rest) :
    m.running = j.proc ∧ PcbOf m.kernel j (topSlot rest) ∧
      (∀ c ∈ rest.head?, WaitsFor m a.current c j) := by
  obtain ⟨c, hc, hr⟩ := h.running
  have hcj : j = c := by simpa [hs] using hc
  have hl := h.holds.linked a.current
  rw [hs] at hl
  exact ⟨hcj ▸ hr, hl.1, hl.2.1⟩

theorem running_parent (h : Represents m a) {rest : List Job}
    (hs : a.stack a.current = j :: rest) :
    (m.kernel.pcbs (getPcbAddr m.kernel)).parent = topSlot rest := by
  obtain ⟨hr, hpcb, -⟩ := running_pcb h hs
  rw [h.getPcbAddr_eq, hr]
  exact hpcb.parent

theorem preempted_release (h : Represents m a) {u : Int} (hu : u ≠ a.current)
    (hj : j ∈ (a.stack u).head?) : Preempted { m with kernel := haltRelease m.kernel } u j := by
  have hne : pcbAddr j.proc.slot ≠ pcbAddr m.running.slot :=
    fun he => h.other_slot hu (mem_of_head? hj) (pcbAddr_inj.mp he)
  refine (h.waiting u hu j hj).frame rfl ?_ ?_ rfl
  · simp only [haltRelease_eq rfl, h.getPcbAddr_eq, Function.update_of_ne hne]
  · simp only [haltRelease_eq rfl, h.getPcbAddr_eq, Function.update_of_ne hne]

theorem release_freeSlot (h : Represents m a) :
    ∃ i, freeSlot (haltRelease m.kernel).processState = some i := by
  obtain ⟨j, hj, hr⟩ := h.running
  obtain ⟨rest, hs⟩ := exists_rest hj
  have hpid := (running_pcb h hs).2.1.pid
  have hslot := h.holds.slots a.current j (mem_of_head? hj)
  refine exists_freeSlot hslot ?_
  rw [haltRelease_eq rfl, h.getPcbAddr_eq, hr, hpid]
  exact Function.update_self _ _ _

theorem halt_root_represents (h : Represents m a) (hload : ShellLoads sys) {status : UInt8}
    {x : Trap} (hat : AtDisplayed sys m (.halt status x)) (hs : a.stack a.current = [j]) :
    ∃ i, Represents (step sys m (.halt status x))
      { a with stack :=
          Function.update a.stack a.current [⟨⟨i, m.calls + 1⟩, entryRegs m x⟩] } := by
  obtain ⟨prog, hprog⟩ := hload x.uninit
  have hparent := running_parent h hs
  have hpop := h.holds.pop hs h.current
  have hrel := haltRelease_eq (k := m.kernel) rfl
  obtain ⟨i, hi⟩ := release_freeSlot h
  have hterm : attachTerminal m.kernel = a.current := by
    rw [attachTerminal_eq h, hat hparent, h.current]
  have hterm' : attachTerminal (haltRelease m.kernel) = a.current := by
    rw [← hterm, attachTerminal, hrel]
    rfl
  have henter := represents_enter hpop hi h.terminal (by rw [← h.current, hrel])
    (by rw [← h.next, hrel]) hterm' prog (entryRegs m x) none
    ⟨m.running, some (m.calls + 1)⟩ ?_ ?_ ?_
  · refine ⟨i, ?_⟩
    rw [Function.update_idem, Function.update_self] at henter
    simp only [step, haltStep, halt_root sys status _ hparent hprog, hterm]
    exact henter
  · simp
  · intro u c hc
    by_cases hu : u = a.current
    · subst hu
      simp at hc
    · rw [Function.update_of_ne hu] at hc
      rw [h.entry_slot]
      exact h.tail_slot hc
  · intro u hu c hc
    rw [Function.update_of_ne hu] at hc
    refine ⟨preempted_release h hu hc, fun he => ?_⟩
    rw [h.entry_slot] at he
    exact absurd he (h.other_slot hu (mem_of_head? hc))

theorem haltStep_parent (h : Represents m a) {c : Job} {rest : List Job} (status : UInt8)
    (x : Trap) (hs : a.stack a.current = j :: c :: rest) :
    haltStep sys status x m =
      { m with
        kernel := { haltRelease m.kernel with
          globalReturnStatus := status
          pdArray := Function.update m.kernel.pdArray userPage (userPageEntry c.proc.slot) }
        running := c.proc
        log := .returned (some j.proc.call) .haltRet (status.toNat : Int) a.current j.ctx j.proc
          status c.proc :: m.log } := by
  obtain ⟨hr, hpcb, hw⟩ := running_pcb h hs
  have hw := hw c (by simp)
  have hslot := h.holds.slots a.current c (by rw [hs]; simp)
  have haddr : getPcbAddr m.kernel = pcbAddr j.proc.slot := by rw [h.getPcbAddr_eq, hr]
  have hparent : (m.kernel.pcbs (pcbAddr j.proc.slot)).parent = c.proc.slot := hpcb.parent
  have hne : (m.kernel.pcbs (pcbAddr j.proc.slot)).parent ≠ -1 := by
    simp only [IsSlot] at hslot
    omega
  simp only [haltStep, halt_parent sys status x.uninit (entryRegs m x) (congrArg _ haddr) hne,
    hpcb.esp, hpcb.ebp, hpcb.target, hparent, hw.stack, hw.activation, h.current, hr]

theorem halt_parent_refines (h : Represents m a) {c : Job} {rest : List Job} {status : UInt8}
    {x : Trap} (hs : a.stack a.current = j :: c :: rest) :
    ∃ a', SessionStep a a' ∧ Represents (step sys m (.halt status x)) a' := by
  obtain ⟨hr, hpcb, hw⟩ := running_pcb h hs
  have hw := hw c (by simp)
  have hpop := h.holds.pop hs h.current
  have hj := h.holds.unreturned a.current j (by rw [hs]; simp)
  have hparent : (m.kernel.pcbs (getPcbAddr m.kernel)).parent = c.proc.slot := running_parent h hs
  have hrel := haltRelease_eq (k := m.kernel) rfl
  have hslot := h.holds.slots a.current c (by rw [hs]; simp)
  refine ⟨_, .pop a j c rest hs, ?_⟩
  rw [step, haltStep_parent h status x hs]
  refine ⟨?_, h.terminal, ?_, ?_, ?_, ?_, ⟨c, by simp, rfl⟩, ?_, ?_, ?_,
    ⟨a.current, rfl, c, by simp, ?_⟩⟩
  · refine hpop.frame rfl rfl (fun _ _ _ => .refl _) (fun _ _ _ => rfl) rfl
      (fun e he => List.mem_cons_of_mem _ he) (fun u c' hc' => ?_)
      (h.holds.log.returned status hj.1 hj.2 hw.called)
    have hold := mem_pop hs hc'
    simp only [returnedCalls, returnedCall, List.filterMap_cons, List.mem_cons, not_or]
    refine ⟨fun he => ?_, (h.holds.unreturned u c' hold).2⟩
    have hslots := h.holds.callsApart u c' hold a.current j (by rw [hs]; simp) he
    obtain ⟨_, hrest⟩ | ⟨hu, _⟩ := mem_update.mp hc'
    · exact h.holds.not_mem_tail hs c' hrest hslots
    · exact h.other_slot hu hold (hr ▸ hslots)
  · rw [← h.current, hrel]
  · rw [← h.next, hrel]
  · rw [← h.ready, hrel]
  · simp only [hrel, hparent]
    simp only [IsSlot] at hslot
    omega
  · simp only [Function.update_self]
  · simp only [hrel, h.getPcbAddr_eq, hr, hw.esp0]
  · intro u hu c' hc'
    simp only [Function.update_of_ne hu] at hc'
    exact (preempted_release h hu hc').frame rfl rfl rfl rfl
  · simp only [hrel, hparent]

theorem halt_refines (h : Represents m a) (hload : ShellLoads sys) {status : UInt8} {x : Trap}
    (hat : AtDisplayed sys m (.halt status x)) :
    ∃ a', SessionStep a a' ∧ Represents (step sys m (.halt status x)) a' := by
  obtain ⟨j, hj, -⟩ := h.running
  cases hs : a.stack a.current with
  | nil => simp [hs] at hj
  | cons j rest =>
    cases rest with
    | nil =>
      obtain ⟨i, hr⟩ := halt_root_represents h hload hat hs
      exact ⟨_, .restart a j _ hs, hr⟩
    | cons c rest => exact halt_parent_refines h hs

def interrupted (t : Trap) (m : Machine) : Machine :=
  { m with
    kernel := saveContext (entryRegs m t) m.kernel
    kstack := Function.update m.kstack (stackSlot (entryRegs m t).esp) ⟨m.running, none⟩
    log := .preempted m.kernel.currentTerminalId m.running (entryRegs m t) :: m.log }

theorem saveAddr_eq (h : Represents m a) : saveAddr m.kernel = pcbAddr m.running.slot := by
  rw [saveAddr, if_neg (fun hp => h.pid hp.2), h.running_top]

theorem interrupted_pcb_running (h : Represents m a) (t : Trap) :
    (interrupted t m).kernel.pcbs (pcbAddr m.running.slot) =
      savedPcb (entryRegs m t) (m.kernel.pcbs (pcbAddr m.running.slot)) := by
  simp only [interrupted, saveContext_eq, saveAddr_eq h, Function.update_self]

theorem interrupted_pcb_other (h : Represents m a) (t : Trap) {p : Int}
    (hp : p ≠ m.running.slot) :
    (interrupted t m).kernel.pcbs (pcbAddr p) = m.kernel.pcbs (pcbAddr p) := by
  simp only [interrupted, saveContext_eq, saveAddr_eq h,
    Function.update_of_ne (fun he => hp (pcbAddr_inj.mp he))]

theorem interrupted_holds (h : Represents m a) (t : Trap) :
    Holds (interrupted t m) a.stack := by
  refine h.holds.frame rfl rfl (fun u j _ => ?_) (fun u j hj => ?_) rfl
    (fun e he => List.mem_cons_of_mem _ he) (fun u j hj => (h.holds.unreturned u j hj).2)
    (h.holds.log.preempted _ _ _)
  · by_cases hp : j.proc.slot = m.running.slot
    · rw [hp, interrupted_pcb_running h]
      exact ⟨rfl, rfl, rfl, rfl, rfl, rfl⟩
    · rw [interrupted_pcb_other h t hp]
      exact .refl _
  · refine Function.update_of_ne ?_ _ _
    rw [h.entry_slot]
    exact h.tail_slot hj

theorem interrupted_preempted (h : Represents m a) (t : Trap) {u : Int}
    (hj : j ∈ (a.stack u).head?) : Preempted (interrupted t m) u j := by
  by_cases hu : u = a.current
  · subst hu
    obtain ⟨c, hc, hr⟩ := h.running
    obtain rfl : j = c := Option.mem_unique hj hc
    have hpcb := interrupted_pcb_running h t
    rw [hr] at hpcb
    constructor
    · rw [hpcb]
      simp only [interrupted, lastPreempted, h.current, if_true, hr, savedPcb]
    · rw [hpcb, ← hr]
      exact h.entry_slot t
    · simp only [interrupted, h.entry_slot, hr, Function.update_self]
  · have hne := h.other_slot hu (mem_of_head? hj)
    have hc : m.kernel.currentTerminalId ≠ u := fun he => hu (he.symm.trans h.current)
    refine (h.waiting u hu j hj).frame (if_neg hc) ?_ ?_ ?_
    · rw [interrupted_pcb_other h t hne]
    · rw [interrupted_pcb_other h t hne]
    · simp only [interrupted, h.entry_slot, Function.update_of_ne hne]

theorem next_facts (h : Represents m a) :
    IsTerminal (nextTerminal m.kernel) ∧ nextTerminal m.kernel ≠ a.current := by
  rw [← h.current]
  exact isTerminal_next (h.current ▸ h.terminal) (h.next.trans h.current.symm)

/-- A tick to a terminal with jobs loads what the latest tick that interrupted this terminal
stored, and installs the page and the kernel stack of the process it interrupted. -/
theorem scheduleHandler_eq (h : Represents m a) (sys : System) (uninit : Nat → UInt8) (t : Trap)
    (x : Regs) (hj : j ∈ (a.stack (nextTerminal m.kernel)).head?) :
    ∃ r, lastPreempted (nextTerminal m.kernel) m.log = some (j.proc, r) ∧
      stackSlot r.esp = j.proc.slot ∧
      scheduleHandler sys uninit (entryRegs m t) x m.kernel =
        .resume { saveContext (entryRegs m t) m.kernel with
          currProcess := pcbAddr j.proc.slot
          currentTerminalId := nextTerminal m.kernel
          pdArray := Function.update m.kernel.pdArray userPage (userPageEntry j.proc.slot)
          tss := { esp0 := kernelStackTop j.proc.slot, ss0 := kernelDs } } r := by
  obtain ⟨hn, hne⟩ := next_facts h
  have hslot := h.holds.slots _ j (mem_of_head? hj)
  have htop : m.kernel.terminalProcessInfo (nextTerminal m.kernel) = j.proc.slot := by
    rw [h.holds.top _ hn, topSlot_eq hj]
  have hused : m.kernel.terminalProcessInfo (nextTerminal m.kernel) ≠ unused := by
    rw [htop]
    simp only [IsSlot, unused] at hslot ⊢
    omega
  have hpre := h.waiting _ hne j hj
  have hpcb := interrupted_pcb_other h t (h.other_slot hne (mem_of_head? hj))
  have hlinked := h.holds.linked (nextTerminal m.kernel)
  obtain ⟨rest, hs⟩ := exists_rest hj
  rw [hs] at hlinked
  have hres := scheduleHandler_resume sys uninit (entryRegs m t) x hused rfl
  rw [htop] at hres
  refine ⟨_, hpre.last, hpre.stack, hres.trans ?_⟩
  change (interrupted t m).kernel.pcbs (pcbAddr j.proc.slot) = _ at hpcb
  simp only [interrupted] at hpcb
  rw [hpcb, hlinked.1.pid]

theorem tickStep_resume (h : Represents m a) (t x : Trap)
    (hj : j ∈ (a.stack (nextTerminal m.kernel)).head?) :
    tickStep sys t x m =
      { interrupted t m with
        kernel := { saveContext (entryRegs m t) m.kernel with
          currProcess := pcbAddr j.proc.slot
          currentTerminalId := nextTerminal m.kernel
          pdArray := Function.update m.kernel.pdArray userPage (userPageEntry j.proc.slot)
          tss := { esp0 := kernelStackTop j.proc.slot, ss0 := kernelDs } }
        running := j.proc } := by
  obtain ⟨r, -, hstack, hres⟩ := scheduleHandler_eq h sys x.uninit t (entryRegs m x) hj
  have hact := (interrupted_preempted h t hj).activation
  simp only [tickStep, hres, hstack]
  simp only [interrupted] at hact ⊢
  rw [hact]

def startKernel (t : Trap) (m : Machine) : Kernel :=
  { saveContext (entryRegs m t) m.kernel with
    scheReady := 1
    currentTerminalId := nextTerminal m.kernel }

theorem tickStep_start (t x : Trap) {prog : Program}
    (htpi : m.kernel.terminalProcessInfo (nextTerminal m.kernel) = unused)
    (hprog : executeChecks sys (some sys.shell) x.uninit = some prog) (hpid : m.kernel.pid ≠ 5) :
    tickStep sys t x m =
      enterProcess none (nextTerminal m.kernel) ⟨m.running, none⟩ (entryRegs m x)
        (spawn prog (entryRegs m x) (startKernel t m))
        { interrupted t m with kernel := startKernel t m } := by
  simp only [tickStep, scheduleHandler_start sys x.uninit _ _ htpi hprog hpid]
  rfl

theorem tick_resume_refines (h : Represents m a) {t x : Trap}
    (hj : j ∈ (a.stack (nextTerminal m.kernel)).head?) :
    ∃ a', SessionStep a a' ∧ Represents (step sys m (.tick t x)) a' := by
  obtain ⟨hn, hne⟩ := next_facts h
  refine ⟨_, .resume a (nextTerminal m.kernel) (by rintro hs; simp [hs] at hj), ?_⟩
  rw [step, tickStep_resume h t x hj]
  refine ⟨(interrupted_holds h t).congr rfl rfl rfl rfl rfl rfl, hn, rfl, rfl, h.ready, h.pid,
    ⟨j, hj, rfl⟩, ?_, rfl, ?_, h.lastCall⟩
  · simp only [Function.update_self]
  · intro u _ c hc
    exact (interrupted_preempted h t hc).frame rfl rfl rfl rfl

theorem tick_start_refines (h : Represents m a) (hload : ShellLoads sys) {t x : Trap}
    (hstart : StartsShell m (.tick t x)) (hs : a.stack (nextTerminal m.kernel) = []) :
    ∃ a', SessionStep a a' ∧ Represents (step sys m (.tick t x)) a' := by
  obtain ⟨hn, hne⟩ := next_facts h
  have htpi : m.kernel.terminalProcessInfo (nextTerminal m.kernel) = unused := by
    rw [h.holds.top _ hn, hs]
    rfl
  obtain ⟨hpid, p, hp, hfree⟩ := hstart htpi
  obtain ⟨prog, hprog⟩ := hload x.uninit
  obtain ⟨i, hi⟩ := exists_freeSlot hp hfree
  have hold : Holds { interrupted t m with kernel := startKernel t m } a.stack :=
    (interrupted_holds h t).congr rfl rfl rfl rfl rfl rfl
  have henter := represents_enter hold hi hn rfl rfl rfl prog (entryRegs m x) none
    ⟨m.running, none⟩ ?_ ?_ ?_
  · refine ⟨_, .start a (nextTerminal m.kernel) ⟨⟨i, m.calls + 1⟩, entryRegs m x⟩ hs, ?_⟩
    rw [step, tickStep_start t x htpi hprog hpid]
    rwa [hs] at henter
  · intro c hc
    rw [hs] at hc
    simp at hc
  · intro u c hc
    rw [h.entry_slot]
    exact h.tail_slot hc
  · intro u _ c hc
    refine ⟨(interrupted_preempted h t hc).frame rfl rfl rfl rfl, fun he => ?_⟩
    have hact := (interrupted_preempted h t hc).activation
    simp only [interrupted, h.entry_slot] at hact
    rw [h.entry_slot] at he
    rw [← hact, he, Function.update_self]

theorem tick_refines (h : Represents m a) (hload : ShellLoads sys) {t x : Trap}
    (hstart : StartsShell m (.tick t x)) :
    ∃ a', SessionStep a a' ∧ Represents (step sys m (.tick t x)) a' := by
  cases hs : a.stack (nextTerminal m.kernel) with
  | nil => exact tick_start_refines h hload hstart hs
  | cons j rest => exact tick_resume_refines (j := j) h (by rw [hs]; rfl)

/-- Every event takes the kernel along a step of the abstract sessions. -/
theorem step_refines (h : Represents m a) (hload : ShellLoads sys) {e : Event}
    (hfind : FindsSlot sys m e) (hat : AtDisplayed sys m e) (hstart : StartsShell m e) :
    ∃ a', SessionStep a a' ∧ Represents (step sys m e) a' := by
  cases e with
  | tick t x => exact tick_refines h hload hstart
  | switchTerminal target =>
    exact ⟨a, .stay a, represents_quiet h (quiet_switchTerminal target m.kernel)⟩
  | execute command x => exact execute_refines h hfind hat
  | halt status x => exact halt_refines h hload hat
  | openFile filename =>
    exact ⟨a, .stay a, represents_quiet h (quiet_openCall sys filename m.kernel)⟩
  | closeFile fd => exact ⟨a, .stay a, represents_quiet h (quiet_closeCall fd m.kernel)⟩

end RedstoneOS.SessionSteps
