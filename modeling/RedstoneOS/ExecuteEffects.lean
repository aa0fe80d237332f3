import RedstoneOS.Schedule

namespace RedstoneOS.ExecuteEffects

open KernelState Execute Schedule

theorem freeSlot_some {ps : Int → Int} {i : Int} (h : freeSlot ps = some i) :
    IsSlot i ∧ ps i = 0 := by
  have hm := List.mem_of_find?_eq_some h
  have hp := List.find?_some h
  simp only [List.mem_cons, List.not_mem_nil, or_false] at hm
  refine ⟨?_, by simpa using hp⟩
  simp only [IsSlot]
  omega

theorem exists_freeSlot {ps : Int → Int} {i : Int} (hi : IsSlot i) (h : ps i = 0) :
    ∃ j, freeSlot ps = some j := by
  rw [← Option.isSome_iff_exists, freeSlot, List.find?_isSome]
  refine ⟨i, ?_, by simpa using h⟩
  simp only [IsSlot] at hi
  simp only [List.mem_cons, List.not_mem_nil, or_false]
  omega

theorem freeSlot_first {ps : Int → Int} {i : Int} (hi : IsSlot i) (h : ps i = 0)
    (hbusy : ∀ j, 0 ≤ j → j < i → ps j ≠ 0) : freeSlot ps = some i := by
  have hcases : i = 0 ∨ i = 1 ∨ i = 2 ∨ i = 3 ∨ i = 4 ∨ i = 5 ∨ i = 6 := by
    simp only [IsSlot] at hi
    omega
  rcases hcases with rfl | rfl | rfl | rfl | rfl | rfl | rfl <;>
    simp [freeSlot, h, hbusy]

def newPcb (prog : Program) (r : Regs) (k : Kernel) (i : Int) : Pcb :=
  { k.pcbs (pcbAddr i) with
    PID := i % 256
    esp0 := k.tss.esp0
    ss0 := k.tss.ss0 % 256
    fileArray := Function.update
      (Function.update (k.pcbs (pcbAddr i)).fileArray 1 stdEntry) 0 stdEntry
    parent := k.terminalProcessInfo (attachTerminal k)
    pcbExeArgs := prog.args ++ List.replicate (bufLen - prog.args.length) 0
    pcbArgSize := prog.args.length
    esp := r.esp
    ebp := r.ebp
    returnAdd := .haltRet }

/-- All that an `execute` call changes, by the slot that its search settles on. -/
theorem spawn_eq_takeSlot (prog : Program) (r : Regs) {k : Kernel} {ps : Int → Int} {q : Int}
    (h : takeSlot k = { k with processState := ps, pid := q }) :
    spawn prog r k =
      { k with
        pid := q
        processState := ps
        terminalProcessInfo := Function.update k.terminalProcessInfo (attachTerminal k) q
        scheReady := 0
        pdArray := Function.update k.pdArray userPage (userPageEntry q)
        tss := { esp0 := kernelStackTop q, ss0 := kernelDs }
        pcbs := Function.update k.pcbs (pcbAddr q) (newPcb prog r k q) } := by
  simp only [spawn, h, constructPcbEntries, storeArguments, storeContext, setPcb,
    switchPd, Function.update_idem, Function.update_self, newPcb, userPageEntry]

theorem spawn_eq (prog : Program) (r : Regs) {k : Kernel} {i : Int}
    (h : freeSlot k.processState = some i) :
    spawn prog r k =
      { k with
        pid := i
        processState := Function.update k.processState i 1
        terminalProcessInfo := Function.update k.terminalProcessInfo (attachTerminal k) i
        scheReady := 0
        pdArray := Function.update k.pdArray userPage (userPageEntry i)
        tss := { esp0 := kernelStackTop i, ss0 := kernelDs }
        pcbs := Function.update k.pcbs (pcbAddr i) (newPcb prog r k i) } :=
  spawn_eq_takeSlot prog r (by simp only [takeSlot, h])

theorem takeSlot_cases (k : Kernel) :
    ∃ ps q, takeSlot k = { k with processState := ps, pid := q } ∧ (q = k.pid ∨ IsSlot q) := by
  cases h : freeSlot k.processState with
  | none => exact ⟨k.processState, k.pid, by simp only [takeSlot, h], Or.inl rfl⟩
  | some i =>
    exact ⟨Function.update k.processState i 1, i, by simp only [takeSlot, h],
      Or.inr (freeSlot_some h).1⟩

theorem spawn_pcb_new (prog : Program) (r : Regs) {k : Kernel} {i : Int}
    (h : freeSlot k.processState = some i) :
    (spawn prog r k).pcbs (pcbAddr i) = newPcb prog r k i := by
  rw [spawn_eq prog r h]
  exact Function.update_self _ _ _

theorem spawn_pcb_other (prog : Program) (r : Regs) {k : Kernel} {i p : Int}
    (h : freeSlot k.processState = some i) (hp : p ≠ i) :
    (spawn prog r k).pcbs (pcbAddr p) = k.pcbs (pcbAddr p) := by
  rw [spawn_eq prog r h]
  exact Function.update_of_ne (fun he => hp (pcbAddr_inj.mp he)) _ _

def clearedPcb (p : Pcb) : Pcb :=
  { p with fileArray := fun fd => if minFdNum ≤ fd ∧ fd < maxFileNum
      then { p.fileArray fd with flags := 0 } else p.fileArray fd }

theorem haltRelease_eq {k : Kernel} {p : Pcb} (hp : k.pcbs (getPcbAddr k) = p) :
    haltRelease k =
      { k with
        pid := p.parent
        processState := Function.update k.processState p.PID 0
        terminalProcessInfo := Function.update k.terminalProcessInfo k.currentTerminalId p.parent
        tss := { esp0 := p.esp0, ss0 := p.ss0 }
        pcbs := Function.update k.pcbs (getPcbAddr k) (clearedPcb p) } := by
  subst hp
  simp only [haltRelease, clearFileDescriptors, setPcb, getPcbAddr, Function.update_self,
    clearedPcb]

theorem haltRelease_pid (k : Kernel) : (haltRelease k).pid = (k.pcbs (getPcbAddr k)).parent := by
  rw [haltRelease_eq rfl]

def savedPcb (r : Regs) (p : Pcb) : Pcb := { p with scheEbp := r.ebp, scheEsp := r.esp }

def saveAddr (k : Kernel) : Int :=
  if k.terminalProcessInfo (nextTerminal k) = unused ∧ k.pid = unused then pcbAddr (nextTerminal k)
  else pcbAddr (k.terminalProcessInfo k.currentTerminalId)

theorem saveContext_eq (r : Regs) (k : Kernel) :
    saveContext r k =
      { k with
        nextScheTerminal := nextTerminal k
        currProcess := saveAddr k
        kernelPageTable := Function.update k.kernelPageTable (video + nextTerminal k * 2)
          (u32 (videoMemory + 2 * sizeOfScreen * nextTerminal k) ||| userNotPresent)
        pcbs := Function.update k.pcbs (saveAddr k) (savedPcb r (k.pcbs (saveAddr k))) } := by
  rfl

theorem nextTerminal_of_current {k : Kernel} (ht : IsTerminal k.currentTerminalId)
    (hn : k.nextScheTerminal = k.currentTerminalId) :
    nextTerminal k = (k.currentTerminalId + 1) % 3 := by
  simp only [nextTerminal, terminalMaximum, hn, IsTerminal] at ht ⊢
  split <;> omega

theorem isTerminal_next {k : Kernel} (ht : IsTerminal k.currentTerminalId)
    (hn : k.nextScheTerminal = k.currentTerminalId) :
    IsTerminal (nextTerminal k) ∧ nextTerminal k ≠ k.currentTerminalId := by
  rw [nextTerminal_of_current ht hn]
  simp only [IsTerminal, terminalMaximum] at ht ⊢
  omega

theorem scheduleHandler_resume (sys : System) (uninit : Nat → UInt8) (r x : Regs) {k : Kernel}
    (h : k.terminalProcessInfo (nextTerminal k) ≠ unused) {p : Pcb}
    (hp : (saveContext r k).pcbs (pcbAddr (k.terminalProcessInfo (nextTerminal k))) = p) :
    scheduleHandler sys uninit r x k =
      .resume { saveContext r k with
        currProcess := pcbAddr (k.terminalProcessInfo (nextTerminal k))
        currentTerminalId := nextTerminal k
        pdArray := Function.update k.pdArray userPage (userPageEntry p.PID)
        tss := { esp0 := kernelStackTop p.PID, ss0 := kernelDs } } ⟨p.scheEsp, p.scheEbp⟩ := by
  subst hp
  have h' : ¬ (saveContext r k).terminalProcessInfo (saveContext r k).nextScheTerminal = unused := h
  simp only [scheduleHandler, if_neg h']
  rfl

theorem scheduleHandler_start (sys : System) (uninit : Nat → UInt8) (r x : Regs) {k : Kernel}
    (h : k.terminalProcessInfo (nextTerminal k) = unused) {prog : Program}
    (hprog : executeChecks sys (some sys.shell) uninit = some prog) (hpid : k.pid ≠ 5) :
    scheduleHandler sys uninit r x k =
      .iret (spawn prog x { saveContext r k with
        scheReady := 1
        currentTerminalId := nextTerminal k }) := by
  have h' : (saveContext r k).terminalProcessInfo (saveContext r k).nextScheTerminal = unused := h
  have hp : ¬ (saveContext r k).pid = 5 := hpid
  simp only [scheduleHandler, if_pos h', runANewShell, execute, hprog, if_neg hp]
  rfl

theorem execute_accepted (sys : System) {command : Option (List UInt8)} {uninit : Nat → UInt8}
    (r : Regs) {k : Kernel} {prog : Program}
    (hprog : executeChecks sys command uninit = some prog) (hpid : k.pid ≠ 5) :
    execute sys command uninit r k = .iret (spawn prog r k) := by
  simp only [execute, hprog, if_neg hpid]

theorem execute_rejected (sys : System) {command : Option (List UInt8)} {uninit : Nat → UInt8}
    (r : Regs) {k : Kernel}
    (h : ∀ prog, executeChecks sys command uninit = some prog → k.pid = 5) :
    execute sys command uninit r k = .ret (-1) k := by
  rw [execute]
  cases hc : executeChecks sys command uninit with
  | none => rfl
  | some prog => exact if_pos (h prog hc)

theorem halt_parent (sys : System) (status : UInt8) (uninit : Nat → UInt8) (r : Regs) {k : Kernel}
    {p : Pcb} (hp : k.pcbs (getPcbAddr k) = p) (h : p.parent ≠ -1) :
    halt sys status uninit r k =
      .jump { haltRelease k with
        globalReturnStatus := status
        pdArray := Function.update k.pdArray userPage (userPageEntry p.parent) }
        ⟨p.esp, p.ebp⟩ p.returnAdd := by
  have hr := haltRelease_eq hp
  have h' : ¬ (haltRelease k).pid = -1 := by
    rw [hr]
    exact h
  simp only [halt, if_neg h', haltJump, switchPd, userPageEntry]
  simp only [hr, Function.update_self, clearedPcb]

theorem halt_root (sys : System) (status : UInt8) {uninit : Nat → UInt8} (r : Regs) {k : Kernel}
    (h : (k.pcbs (getPcbAddr k)).parent = -1) {prog : Program}
    (hprog : executeChecks sys (some sys.shell) uninit = some prog) :
    halt sys status uninit r k = .iret (spawn prog r (haltRelease k)) := by
  have h' : (haltRelease k).pid = -1 := by
    rw [haltRelease_pid]
    exact h
  have hpid : (haltRelease k).pid ≠ 5 := by omega
  simp only [halt, if_pos h', execute_accepted sys r hprog hpid]

end RedstoneOS.ExecuteEffects
