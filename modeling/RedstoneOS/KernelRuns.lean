import RedstoneOS.Library.Runs
import RedstoneOS.Schedule
import RedstoneOS.Syscalls

namespace RedstoneOS.KernelRuns

open KernelState Execute Schedule Syscalls Library.Runs

def kernelStackRoom : Nat := 7980

/-- What an entry into the kernel finds: the depth its activation reaches below `tss.esp0`,
its frame pointer and the garbage in its uninitialised locals. -/
structure Trap where
  depth : Nat
  room : depth ≤ kernelStackRoom
  ebp : Int
  uninit : Nat → UInt8

inductive Event
  | tick (t x : Trap)
  | switchTerminal (target : Fin 3)
  | execute (command : Option (List UInt8)) (x : Trap)
  | halt (status : UInt8) (x : Trap)
  | openFile (filename : Option (List UInt8))
  | closeFile (fd : Int)

/-- A process is a slot together with the `execute` call that filled it, for slots are
reused. Calls are numbered from 1. -/
structure Proc where
  slot : Int
  call : Nat
  deriving DecidableEq

/-- The activation that waits on a kernel stack, and the `execute` call it is inside. -/
structure Suspended where
  proc : Proc
  pending : Option Nat

inductive Record
  | called (call : Nat) (caller : Option Proc) (terminal : Int) (child : Proc) (r : Regs)
  | returned (call : Option Nat) (target : CodeAddr) (value : Int) (terminal : Int) (r : Regs)
      (child : Proc) (status : UInt8) (resumed : Proc)
  | preempted (terminal : Int) (proc : Proc) (r : Regs)
  deriving DecidableEq

/-- The kernel, the contents of the kernel stacks, the process whose code runs, the number of
`execute` calls that started a process, and what happened so far, newest first. -/
structure Machine where
  kernel : Kernel
  kstack : Int → Suspended
  running : Proc
  calls : Nat
  log : List Record

def stackSlot (esp : Int) : Int := (baMb - 1 - esp) / baKb

theorem stackSlot_kernelStackTop (p : Int) (t : Trap) :
    stackSlot (kernelStackTop p - t.depth) = p := by
  have h := t.room
  simp only [stackSlot, kernelStackTop, baMb, baKb, kernelStackRoom] at h ⊢
  omega

def entryRegs (m : Machine) (t : Trap) : Regs := ⟨m.kernel.tss.esp0 - t.depth, t.ebp⟩

/-- An `execute` call has left through `iret`: the call waits on the stack it was made on
and the process in the slot it chose runs. -/
def enterProcess (caller : Option Proc) (terminal : Int) (waiting : Suspended) (r : Regs)
    (k : Kernel) (m : Machine) : Machine :=
  { kernel := k
    kstack := Function.update m.kstack (stackSlot r.esp) waiting
    running := ⟨k.pid, m.calls + 1⟩
    calls := m.calls + 1
    log := .called (m.calls + 1) caller terminal ⟨k.pid, m.calls + 1⟩ r :: m.log }

def tickStep (sys : System) (t x : Trap) (m : Machine) : Machine :=
  let r := entryRegs m t
  let m' := { m with
    kstack := Function.update m.kstack (stackSlot r.esp) ⟨m.running, none⟩
    log := .preempted m.kernel.currentTerminalId m.running r :: m.log }
  match scheduleHandler sys x.uninit r (entryRegs m x) m.kernel with
  | .iret k =>
    enterProcess none (nextTerminal m.kernel) ⟨m.running, none⟩ (entryRegs m x) k m'
  | .resume k r' =>
    { m' with kernel := k, running := (m'.kstack (stackSlot r'.esp)).proc }

def switchTerminal (target : Fin 3) (k : Kernel) : Kernel :=
  switchVideoPd (videoMemory + 2 * sizeOfScreen * (target : Nat)) (target : Nat)
    { k with terminalId := (target : Nat) }

def executeStep (sys : System) (command : Option (List UInt8)) (x : Trap) (m : Machine) :
    Machine :=
  match execute sys command x.uninit (entryRegs m x) m.kernel with
  | .ret _ k => { m with kernel := k }
  | .iret k =>
    enterProcess (some m.running) (attachTerminal m.kernel) ⟨m.running, some (m.calls + 1)⟩
      (entryRegs m x) k m

/-- A `halt` that jumps to `halt_ret` makes the `execute` call that waits on the loaded stack
return `global_return_status`. -/
def haltStep (sys : System) (status : UInt8) (x : Trap) (m : Machine) : Machine :=
  match halt sys status x.uninit (entryRegs m x) m.kernel with
  | .iret k =>
    enterProcess none (attachTerminal m.kernel) ⟨m.running, some (m.calls + 1)⟩
      (entryRegs m x) k m
  | .jump k r target =>
    let waiting := m.kstack (stackSlot r.esp)
    { m with
      kernel := k
      running := waiting.proc
      log := .returned waiting.pending target k.globalReturnStatus.toNat
        m.kernel.currentTerminalId r m.running status waiting.proc :: m.log }

def step (sys : System) (m : Machine) : Event → Machine
  | .tick t x => tickStep sys t x m
  | .switchTerminal target => { m with kernel := switchTerminal target m.kernel }
  | .execute command x => executeStep sys command x m
  | .halt status x => haltStep sys status x m
  | .openFile filename => { m with kernel := (openCall sys filename m.kernel).2 }
  | .closeFile fd => { m with kernel := (closeCall fd m.kernel).2 }

/-- The globals when `entry` enables interrupts. The static array `process_state` is zero
beyond the six cells that `entry` clears. -/
def bootKernel (k : Kernel) : Kernel :=
  { initializeSchedule k with
    processState := fun i => if IsSlot i then 0 else k.processState i
    pid := -1
    terminalId := 0
    tss := { esp0 := baMb - 4, ss0 := kernelDs } }

/-- The boot code runs on the kernel stack of slot 0 and is no process. -/
def initial (k : Kernel) (kstack : Int → Suspended) : Machine where
  kernel := bootKernel k
  kstack := kstack
  running := ⟨-1, 0⟩
  calls := 0
  log := []

def BootShells (sys : System) (m : Machine) : Prop :=
  ∃ k kstack t₀ x₀ t₁ x₁ t₂ x₂,
    m = run (step sys) (initial k kstack) [.tick t₀ x₀, .tick t₁ x₁, .tick t₂ x₂]

/-- `execute("shell")` passes the tests that precede the slot limit. -/
def ShellLoads (sys : System) : Prop :=
  ∀ uninit, ∃ prog, executeChecks sys (some sys.shell) uninit = some prog

end RedstoneOS.KernelRuns
