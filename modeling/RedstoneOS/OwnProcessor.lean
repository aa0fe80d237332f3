import RedstoneOS.TimeSharing

namespace RedstoneOS.OwnProcessor

open KernelState Execute Schedule ExecuteEffects KernelRuns Sessions SessionSteps SessionRuns
open ContextSwitch Library.ByteMemory Library.Processor Library.Runs Linkage KernelFrames TimeSharing

variable {alu : Alu} {code : Code} {sys : System} {m m' : Machine} {a a' : Session} {p q t : Int}
  {c c' v : Core} {cpu : Cpu} {mem mem' : Memory UInt8} {cores cores' : Int → Core}

/-- The process of slot `p` waits on its kernel stack for the C function with the frame `ebp`. -/
structure Rests (after : UInt32) (n : Nat) (p : Int) (v : Core) (ebp : Int) (mem : Memory UInt8) :
    Prop where
  frame : Frame after n v.cpu (interruptBase (word (kernelStackTop p)) v.cpu).toNat ebp.toNat mem
  low : (stackLow p : Int) ≤ ebp
  sound : OnOwnStack p v.cpu
  stack : ¬ v.cpu.IsUser → AgreeOn v.esp.toNat (stackTop p) v.mem mem

structure Runs (p : Int) (v c : Core) : Prop where
  cpu : c.cpu = v.cpu
  sound : OnOwnStack p v.cpu
  stack : ¬ v.cpu.IsUser → AgreeOn v.esp.toNat (stackTop p) v.mem c.mem

/-- The one processor and the kernel stacks hold the processors of all processes. -/
structure Shared (code : Code) (m : Machine) (c : Core) (cores : Int → Core) : Prop where
  runs : Runs m.running.slot (cores m.running.slot) c
  parked : ∀ t, IsTerminal t → t ≠ m.kernel.currentTerminalId →
    m.kernel.terminalProcessInfo t ≠ unused →
    Rests code.afterTick 0 (m.kernel.terminalProcessInfo t) (cores (m.kernel.terminalProcessInfo t))
      (m.kernel.pcbs (pcbAddr (m.kernel.terminalProcessInfo t))).scheEbp c.mem
  waiting : ∀ p, Live m p → (m.kernel.pcbs (pcbAddr p)).parent ≠ -1 →
    (cores (m.kernel.pcbs (pcbAddr p)).parent).cpu.IsUser ∧
    Rests code.image.afterCall 3 (m.kernel.pcbs (pcbAddr p)).parent
      (cores (m.kernel.pcbs (pcbAddr p)).parent) (m.kernel.pcbs (pcbAddr p)).ebp c.mem
  segment : m.kernel.tss.ss0 = KernelState.kernelDs
  segments : ∀ p, Live m p → (m.kernel.pcbs (pcbAddr p)).ss0 = KernelState.kernelDs

theorem stackTop_eq (hp : IsSlot p) : (stackTop p : Int) = kernelStackTop p ∧
    stackTop p + 8192 * p.toNat = 8388604 ∧ stackLow p + 7980 = stackTop p ∧
    (word (kernelStackTop p)).toNat = stackTop p := by
  obtain ⟨h0, h7⟩ := hp
  have htop : kernelStackTop p = 8388604 - 8192 * p := by
    simp only [kernelStackTop, baMb, baKb]
    omega
  have hword := word_toNat (i := kernelStackTop p) (by omega) (by omega)
  simp only [stackLow, stackTop, kernelStackRoom] at hword ⊢
  refine ⟨by omega, by omega, by omega, hword⟩

theorem base_le (hp : IsSlot p) (h : OnOwnStack p cpu) :
    stackLow p ≤ (interruptBase (word (kernelStackTop p)) cpu).toNat ∧
      (interruptBase (word (kernelStackTop p)) cpu).toNat ≤ stackTop p := by
  obtain ⟨-, htop, hlow, hword⟩ := stackTop_eq hp
  by_cases huser : cpu.IsUser
  · rw [interruptBase, if_pos huser, hword]
    omega
  · rw [interruptBase, if_neg huser]
    exact ⟨(h huser).1, (h huser).2.1⟩

variable {after : UInt32} {n : Nat} {ebp : Int}

theorem Rests.congr (h : Rests after n p v ebp mem) (hp : IsSlot p)
    (hmem : AgreeOn (stackLow p) (stackTop p) mem mem') : Rests after n p v ebp mem' := by
  have hbase := (base_le hp h.sound).2
  have hlow := h.low
  have hframe := h.frame.base
  have hlen := savedContext_length 0 0 v.cpu
  refine ⟨h.frame.congr (fun x hlo hhi => hmem x (by omega) (by omega))
    (fun x hlo hhi => hmem x (by omega) (by omega)), hlow, h.sound, fun hkernel x hlo hhi => ?_⟩
  have hesp := (h.sound hkernel).1
  change stackLow p ≤ v.esp.toNat at hesp
  rw [h.stack hkernel x hlo hhi]
  exact hmem x (by omega) hhi

theorem Runs.congr (h : Runs p v c) (hcpu : c'.cpu = c.cpu)
    (hmem : AgreeOn (stackLow p) (stackTop p) c.mem c'.mem) : Runs p v c' := by
  refine ⟨hcpu.trans h.cpu, h.sound, fun hkernel x hlo hhi => ?_⟩
  have hesp := (h.sound hkernel).1
  change stackLow p ≤ v.esp.toNat at hesp
  rw [h.stack hkernel x hlo hhi]
  exact hmem x (by omega) hhi

/-- The statement about an event: the computer does not leave its code, and it shows the processors
that the event leaves. -/
def Keeps (alu : Alu) (code : Code) (sys : System) (m : Machine) (c : Core) (cores : Int → Core)
    (e : TimeSharing.Event) : Prop :=
  ∃ c', stepCore alu code sys m e c = some c' ∧
    Shared code (stepMachine sys m e) c' (Processors.step code sys ⟨m, cores⟩ e).cores

def startComputer (k : Kernel) (kstack : Int → Suspended) (boot : Core) : Computer :=
  ⟨initial k kstack, some boot⟩

/-- What the process of slot `p` can tell: its registers and, in the kernel, its stack. -/
def SameView (p : Int) (v c : Core) : Prop :=
  c.cpu = v.cpu ∧ (¬ c.cpu.IsUser → AgreeOn c.esp.toNat (stackTop p) v.mem c.mem)

/-- The computer shows the running process its own processor. -/
structure Shows (s : Computer) (v : Processors) : Prop where
  machine : s.machine = v.machine
  core : ∃ c, s.core = some c ∧ (s.machine.kernel.currentTerminalId ≠ unused →
    SameView s.machine.running.slot (v.cores s.machine.running.slot) c)

def tinyStart : Computer := startComputer ExecuteChecks.tinyKernel (fun _ => ⟨⟨-1, 0⟩, none⟩) tinyCaller

end RedstoneOS.OwnProcessor
