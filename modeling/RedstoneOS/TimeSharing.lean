import RedstoneOS.ContextSwitch
import RedstoneOS.KernelFrames

namespace RedstoneOS.TimeSharing

open KernelState Execute Schedule ExecuteEffects KernelRuns ContextSwitch
open Library.ByteMemory Library.Processor Library.Runs Linkage KernelFrames

structure Code where
  image : Image
  tickWrapper : UInt32
  afterTick : UInt32
  scheduleEntry : UInt32
  userEip : Nat

inductive Call
  | switchTerminal (target : Fin 3)
  | openFile (filename : Option (List UInt8))
  | closeFile (fd : Int)

def Call.event : Call → KernelRuns.Event
  | .switchTerminal target => .switchTerminal target
  | .openFile filename => .openFile filename
  | .closeFile fd => .closeFile fd

/-- What happens on the processor. The code that runs, of a program or of the kernel, goes on and
leaves `c`, or a tick, an `execute` or a `halt` interrupts it. `left` is what the C code of the
kernel leaves in the registers and in memory. -/
inductive Event
  | compute (call : Option Call) (c : Core)
  | tick (t x : Trap) (left : Core)
  | execute (command : Option (List UInt8)) (x : Trap) (left : Core)
  | halt (status : UInt8) (x : Trap) (left : Core)

def Event.kernel : Event → Option KernelRuns.Event
  | .compute call _ => call.map Call.event
  | .tick t x _ => some (.tick t x)
  | .execute command x _ => some (.execute command x)
  | .halt status x _ => some (.halt status x)

/-- The kernel's data with the one processor and the memory below the user pages. The processor
is `none` once it has left the code of the wrappers. -/
structure Computer where
  machine : Machine
  core : Option Core

variable (alu : Alu) (code : Code) (sys : System)

def stepMachine (m : Machine) (e : Event) : Machine :=
  match e.kernel with
  | none => m
  | some e => KernelRuns.step sys m e

def esp0 (m : Machine) : UInt32 := word m.kernel.tss.esp0

def tickGate (m : Machine) : Gate := ⟨code.tickWrapper, Linkage.kernelCs, word m.kernel.tss.ss0⟩

def serve (img : Image) (s : SystemCall) (f : Core → Core) : Image :=
  { img with body := fun s' => if s' = s then fun e => some (f e) else img.body s' }

def programEip (command : Option (List UInt8)) (x : Trap) : UInt32 :=
  match executeChecks sys command x.uninit with
  | none => 0
  | some prog => KernelFrames.userEip sys code.userEip (fun i => x.uninit (i + 4)) prog.inodeNum

def startCore (m : Machine) (command : Option (List UInt8)) (x : Trap) (left : Core) : Core :=
  runOps alu (enterUser (programEip code sys command x)) (left.set .esp (word (entryRegs m x).esp))

def returnTick (r : Regs) (left e : Core) : Core :=
  runOps alu leaveFunction (loadContext r (cCode left (runOps alu enterFunction e)))

def returnExecute (value : Int) (left e : Core) : Core :=
  runOps alu leaveFunction ((cCode left (runOps alu enterFunction e)).set .eax (word value))

def returnHalt (status : UInt8) (r : Regs) (left e : Core) : Core :=
  runOps alu leaveFunction
    ((loadContext r (cCode left (runOps alu enterFunction e))).set .eax (word status.toNat))

def tickCore (m : Machine) (t x : Trap) (left c : Core) : Option Core :=
  match scheduleHandler sys x.uninit (entryRegs m t) (entryRegs m x) m.kernel with
  | .iret _ => some (startCore alu code sys m (some sys.shell) x left)
  | .resume _ r =>
    scheduleWrapper alu code.afterTick code.scheduleEntry (fun e => some (returnTick alu r left e))
      (interrupt (tickGate code m) (esp0 m) c)

def executeCore (m : Machine) (command : Option (List UInt8)) (x : Trap) (left c : Core) :
    Option Core :=
  match Execute.execute sys command x.uninit (entryRegs m x) m.kernel with
  | .iret _ => some (startCore alu code sys m command x left)
  | .ret value _ =>
    int80 alu (serve code.image .execute (returnExecute alu value left)) (esp0 m) c

def haltCore (m : Machine) (status : UInt8) (x : Trap) (left c : Core) : Option Core :=
  match Execute.halt sys status x.uninit (entryRegs m x) m.kernel with
  | .iret _ => some (startCore alu code sys m (some sys.shell) x left)
  | .jump k r .haltRet =>
    int80 alu (serve code.image .halt (returnHalt alu k.globalReturnStatus r left)) (esp0 m) c
  | .jump _ _ .unset => none

def stepCore (m : Machine) : Event → Core → Option Core
  | .compute _ c', _ => some c'
  | .tick t x left, c => tickCore alu code sys m t x left c
  | .execute command x left, c => executeCore alu code sys m command x left c
  | .halt status x left, c => haltCore alu code sys m status x left c

def step (s : Computer) (e : Event) : Computer :=
  ⟨stepMachine sys s.machine e, s.core.bind (stepCore alu code sys s.machine e)⟩

/-- What time sharing is for: every slot has a processor and a kernel stack of its own. -/
structure Processors where
  machine : Machine
  cores : Int → Core

def Event.fresh : Event → Core
  | .compute _ c => c
  | .tick _ x left => ⟨started (programEip code sys (some sys.shell) x) left.cpu, left.mem⟩
  | .execute command x left => ⟨started (programEip code sys command x) left.cpu, left.mem⟩
  | .halt _ x left => ⟨started (programEip code sys (some sys.shell) x) left.cpu, left.mem⟩

/-- What an event that starts no process changes: a tick nothing, `halt` the processor of the
parent, whose `execute` it answers. -/
def Event.goOn (m m' : Machine) (cores : Int → Core) : Event → Int → Core
  | .compute _ c => Function.update cores m.running.slot c
  | .tick .. => cores
  | .execute .. => Function.update cores m.running.slot ((cores m.running.slot).set .eax (-1))
  | .halt status .. =>
    Function.update cores m'.running.slot ((cores m'.running.slot).set .eax (word status.toNat))

def Processors.step (v : Processors) (e : Event) : Processors :=
  let m' := stepMachine sys v.machine e
  { machine := m'
    cores := if m'.calls = v.machine.calls then e.goOn v.machine m' v.cores
      else Function.update v.cores m'.running.slot (e.fresh code sys) }

def stackTop (p : Int) : Nat := (kernelStackTop p).toNat

def stackLow (p : Int) : Nat := stackTop p - kernelStackRoom

def Live (m : Machine) (p : Int) : Prop := IsSlot p ∧ m.kernel.processState p = 1

def KeepsOthers (m : Machine) (mem mem' : Memory UInt8) : Prop :=
  ∀ q, Live m q → q ≠ m.running.slot → AgreeOn (stackLow q) (stackTop q) mem mem'

def OnOwnStack (p : Int) (c : Cpu) : Prop :=
  ¬ c.IsUser → stackLow p ≤ (c.reg .esp).toNat ∧ (c.reg .esp).toNat ≤ stackTop p ∧
    c.ss = Linkage.kernelDs

/-- The activation that a trap describes has the frame `f` with `n` arguments, and its C code, which
leaves the memory `mem`, keeps to its part of the stack. -/
structure Activation (m : Machine) (n : Nat) (t : Trap) (f : Core) (mem : Memory UInt8) : Prop where
  ebp : t.ebp = (f.cpu.reg .ebp).toNat
  esp : (entryRegs m t).esp ≤ (f.cpu.reg .ebp).toNat
  others : KeepsOthers m f.mem mem
  ret : AgreeOn ((f.cpu.reg .ebp).toNat + 4) ((f.cpu.reg .ebp).toNat + 8) f.mem mem
  own : AgreeOn ((f.cpu.reg .ebp).toNat + 8 + 4 * n) (stackTop m.running.slot) f.mem mem

def tickFrame (m : Machine) (c : Core) : Core :=
  runOps alu enterFunction (atHandler alu true code.afterTick code.scheduleEntry
    (interrupt (tickGate code m) (esp0 m) c))

def callFrame (m : Machine) (s : SystemCall) (c : Core) : Core :=
  runOps alu enterFunction (atEntry alu code.image (esp0 m) s c)

/-- What is assumed of the code that runs and of the C code of the kernel. -/
def Behaves (m : Machine) (c : Core) : Event → Prop
  | .compute _ c' => KeepsOthers m c.mem c'.mem ∧ OnOwnStack m.running.slot c'.cpu
  | .tick t x left =>
    Activation m 0 t (tickFrame alu code m c) left.mem ∧
      (entryRegs m x).esp ≤ ((tickFrame alu code m c).cpu.reg .ebp).toNat
  | .execute _ x left =>
    c.cpu.IsUser ∧ c.cpu.reg .eax = SystemCall.execute.number ∧
      Activation m 3 x (callFrame alu code m .execute c) left.mem
  | .halt _ _ left =>
    c.cpu.IsUser ∧ c.cpu.reg .eax = SystemCall.halt.number ∧
      KeepsOthers m (callFrame alu code m .halt c).mem left.mem

/-- The runs from the start of the scheduler. The boot code runs for no process, and nothing is
assumed of it. -/
def Fits (s : Computer) (e : Event) : Prop :=
  (∀ e', e.kernel = some e' → Booted sys s.machine e') ∧
    (s.machine.kernel.currentTerminalId ≠ unused → ∀ c, s.core = some c →
      Behaves alu code s.machine c e)

end RedstoneOS.TimeSharing
