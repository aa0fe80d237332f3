import RedstoneOS.Execute

namespace RedstoneOS.Schedule

open KernelState Execute

def initializeSchedule (k : Kernel) : Kernel :=
  { k with
    scheReady := 1
    nextScheTerminal := 0
    currentTerminalId := unused
    terminalProcessInfo := fun t => if IsTerminal t then unused else k.terminalProcessInfo t }

def runANewShell (sys : System) (uninit : Nat → UInt8) (r : Regs) (k : Kernel) : ExecuteOutcome :=
  execute sys (some sys.shell) uninit r
    { k with scheReady := 1, currentTerminalId := k.nextScheTerminal }

def nextTerminal (k : Kernel) : Int :=
  if terminalMaximum - 1 ≤ k.nextScheTerminal then (k.currentTerminalId + 1) % terminalMaximum
  else k.currentTerminalId + 1

inductive TickOutcome
  | iret (k : Kernel)
  | resume (k : Kernel) (r : Regs)

def restoreContext (k : Kernel) : TickOutcome :=
  let p := k.pcbs k.currProcess
  .resume { k with tss := { esp0 := kernelStackTop p.PID, ss0 := kernelDs } } ⟨p.scheEsp, p.scheEbp⟩

def saveContext (r : Regs) (k : Kernel) : Kernel :=
  let next := nextTerminal k
  let k := switchVideoPd (videoMemory + 2 * sizeOfScreen * next) next
    { k with nextScheTerminal := next }
  let currProcess :=
    if k.terminalProcessInfo next = unused ∧ k.pid = unused then pcbAddr next
    else pcbAddr (k.terminalProcessInfo k.currentTerminalId)
  setPcb currProcess (fun p => { p with scheEbp := r.ebp, scheEsp := r.esp })
    { k with currProcess := currProcess }

/-- `r` are the registers the handler saves, `x` those of the `execute` call that it makes
when it has to start a shell. -/
def scheduleHandler (sys : System) (uninit : Nat → UInt8) (r x : Regs) (k : Kernel) :
    TickOutcome :=
  let k := saveContext r k
  if k.terminalProcessInfo k.nextScheTerminal = unused then
    match runANewShell sys uninit x k with
    | .iret k => .iret k
    | .ret _ k => restoreContext k
  else
    let currProcess := pcbAddr (k.terminalProcessInfo k.nextScheTerminal)
    let k := switchPd (userPageAddr (k.pcbs currProcess).PID) { k with currProcess := currProcess }
    restoreContext { k with currentTerminalId := k.nextScheTerminal }

end RedstoneOS.Schedule
