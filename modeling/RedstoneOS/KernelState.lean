import Mathlib.Logic.Function.Basic

namespace RedstoneOS.KernelState

/-- A value stored in a 32-bit unsigned variable. -/
def u32 (i : Int) : Nat := (i % 4294967296).toNat

def fMb : Int := 0x0400000
def baMb : Int := 0x0800000
def baKb : Int := 0x2000
def fourMbUser : Nat := 0x87
def userNotPresent : Nat := 0x07
def userPage : Nat := 32
def video : Int := 184
def videoMemory : Int := 0xB8000
def sizeOfScreen : Int := 0x1000
def kernelDs : Int := 0x18
def terminalMaximum : Int := 3
def unused : Int := -1
def minFdNum : Int := 2
def maxFdNum : Int := 7
def maxFileNum : Int := 8

/-- The PCB of a slot lies at the bottom of the slot's 8KB kernel stack. -/
def pcbAddr (slot : Int) : Int := baMb - baKb * (slot + 1)

def userPageAddr (slot : Int) : Int := baMb + fMb * slot

def kernelStackTop (slot : Int) : Int := baMb - baKb * slot - 4

theorem pcbAddr_injective : Function.Injective pcbAddr := by
  intro a b h
  simp only [pcbAddr, baMb, baKb] at h
  omega

@[simp] theorem pcbAddr_inj {a b : Int} : pcbAddr a = pcbAddr b ↔ a = b :=
  pcbAddr_injective.eq_iff

theorem kernelStackTop_injective : Function.Injective kernelStackTop := by
  intro a b h
  simp only [kernelStackTop, baMb, baKb] at h
  omega

inductive FileOps
  | rtc
  | terminal
  | directory
  | file
  deriving DecidableEq

structure FileEntry where
  fOp : Option FileOps
  inode : Nat
  filePosition : Nat
  flags : Nat
  deriving DecidableEq

/-- Where `halt` jumps to: nothing stored yet, or the label at the end of `execute`. -/
inductive CodeAddr
  | unset
  | haltRet
  deriving DecidableEq

structure Pcb where
  fileArray : Int → FileEntry
  parent : Int
  pcbExeArgs : List UInt8
  pcbArgSize : Int
  PID : Int
  esp0 : Int
  ss0 : Int
  returnAdd : CodeAddr
  esp : Int
  ebp : Int
  scheEsp : Int
  scheEbp : Int

structure Tss where
  esp0 : Int
  ss0 : Int

structure Regs where
  esp : Int
  ebp : Int
  deriving DecidableEq

/-- The globals of the kernel. Arrays are indexed by `Int` as the code indexes them, so
that a lookup at -1 is a lookup; PCBs are looked up by the address the code computes. -/
structure Kernel where
  pid : Int
  globalReturnStatus : UInt8
  processState : Int → Int
  terminalProcessInfo : Int → Int
  currentTerminalId : Int
  nextScheTerminal : Int
  scheReady : Int
  terminalId : Int
  currProcess : Int
  pdArray : Nat → Nat
  kernelPageTable : Int → Nat
  tss : Tss
  pcbs : Int → Pcb

def switchPd (addr : Int) (k : Kernel) : Kernel :=
  { k with pdArray := Function.update k.pdArray userPage (u32 addr ||| fourMbUser) }

def switchVideoPd (addr : Int) (terminalId : Int) (k : Kernel) : Kernel :=
  { k with kernelPageTable :=
      Function.update k.kernelPageTable (video + terminalId * 2) (u32 addr ||| userNotPresent) }

def setPcb (addr : Int) (f : Pcb → Pcb) (k : Kernel) : Kernel :=
  { k with pcbs := Function.update k.pcbs addr (f (k.pcbs addr)) }

def setFile (fd : Int) (f : FileEntry → FileEntry) (p : Pcb) : Pcb :=
  { p with fileArray := Function.update p.fileArray fd (f (p.fileArray fd)) }

def getPcbAddr (k : Kernel) : Int := pcbAddr (k.terminalProcessInfo k.currentTerminalId)

def userPageEntry (slot : Int) : Nat := u32 (userPageAddr slot) ||| fourMbUser

def altF1 : Fin 3 := 0
def altF2 : Fin 3 := 1
def altF3 : Fin 3 := 2

def IsTerminal (t : Int) : Prop := 0 ≤ t ∧ t < terminalMaximum

def IsSlot (p : Int) : Prop := 0 ≤ p ∧ p < 7

instance (t : Int) : Decidable (IsTerminal t) := inferInstanceAs (Decidable (_ ∧ _))

instance (p : Int) : Decidable (IsSlot p) := inferInstanceAs (Decidable (_ ∧ _))

theorem userPageEntry_inj {p q : Int} (hp : IsSlot p) (hq : IsSlot q)
    (h : userPageEntry p = userPageEntry q) : p = q := by
  have hentry : ∀ i j : Fin 7, userPageEntry (i : Nat) = userPageEntry (j : Nat) → i = j := by
    decide
  obtain ⟨i, rfl⟩ := Int.eq_ofNat_of_zero_le hp.1
  obtain ⟨j, rfl⟩ := Int.eq_ofNat_of_zero_le hq.1
  have hi := hp.2
  have hj := hq.2
  exact congrArg (fun n : Fin 7 => ((n : Nat) : Int))
    (hentry ⟨i, by omega⟩ ⟨j, by omega⟩ h)

end RedstoneOS.KernelState
