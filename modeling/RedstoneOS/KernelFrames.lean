import RedstoneOS.Execute
import RedstoneOS.Linkage

namespace RedstoneOS.KernelFrames

open KernelState Execute Library.ByteMemory Library.Processor Linkage

variable (alu : Alu) (img : Image)

def word (i : Int) : UInt32 := UInt32.ofNat (u32 i)

theorem word_toNat {i : Int} (h0 : 0 ≤ i) (h : i < 4294967296) : (word i).toNat = i.toNat := by
  rw [word, u32, UInt32.toNat_ofNat']
  omega

/-- What C code leaves that has been entered with the frame of `f`: it keeps the frame pointer and
the stack segment. -/
def cCode (left f : Core) : Core :=
  ⟨{ left.cpu.set .ebp (f.cpu.reg .ebp) with ss := f.cpu.ss }, left.mem⟩

def loadContext (r : Regs) (c : Core) : Core := (c.set .esp (word r.esp)).set .ebp (word r.ebp)

def userCs : UInt32 := 0x23
def userDs : UInt32 := 0x2B
def userProgramEsp : UInt32 := 0x83FFFFC
def iretMask : UInt32 := 0x200

/-- The assembler at the end of `execute`, without the loads of the data segments. -/
def enterUser (eip : UInt32) : List Op :=
  [.pushConstant userDs, .pushConstant userProgramEsp, .pushfl, .pop .eax, .or iretMask .eax,
    .push .eax, .pushConstant userCs, .pushConstant eip, .iret]

/-- The processor of a process that `execute` starts. The registers that the kernel does not set
keep what its C code has left in them. -/
def started (eip : UInt32) (left : Cpu) : Cpu :=
  { reg := Function.update (Function.update left.reg .eax (left.eflags ||| iretMask)) .esp
      userProgramEsp
    eflags := left.eflags ||| iretMask
    eip := eip
    cs := userCs
    ss := userDs }

def userEip (sys : System) (place : Nat) (uninit : Nat → UInt8) (inode : Nat) : UInt32 :=
  dwordAt (Filesystem.readData (fill sys.mem place uninit 4) sys.fs inode 24 place 4).2 place

variable {c e : Core} {cpu : Cpu} {eip : UInt32}

variable {esp0 : UInt32} {s : SystemCall}

end RedstoneOS.KernelFrames
