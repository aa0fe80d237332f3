import RedstoneOS.CommandStrings
import RedstoneOS.ExecuteChecks
import RedstoneOS.Outcomes

namespace RedstoneOS.ExecutableFiles

open KernelState Lib Library.ByteMemory Filesystem ReadData Execute ExecuteEffects ExecuteChecks
open Outcomes

def elfMagic (j : Nat) : UInt8 := ([0x7f, 0x45, 0x4c, 0x46] : List UInt8).getD j 0

/-- Memory when `execute` reads the first bytes of the file. -/
def checkMem (sys : System) (uninit : Nat → UInt8) : Mem := fill sys.mem sys.elfCheckBytes uninit 4

def namedEntry (sys : System) (command : List UInt8) : Option Dentry :=
  readDentryByName sys.mem sys.fs (byteAt (commandName command))

def WellFormed (command : List UInt8) : Prop :=
  ¬ (byteAt command 0 = 0 ∨ byteAt command 0 = 32) ∧ (commandName command).length ≤ bufLen ∧
    (commandArgs command).length ≤ bufLen

/-- `read_data` does not refuse to read the beginning of the file. -/
def Readable (m : Mem) (fs : FsInfo) (inode : Nat) : Prop :=
  dataLength m fs inode = 0 ∨ inode < fs.inodeNumLoc ∧ dataIndex m fs inode 0 < fs.dataBlockLoc

/-- The bytes that are compared with the magic ones: those of the file as far as it goes, then
those that the array held before. -/
def checkByte (m : Mem) (fs : FsInfo) (inode : Nat) (uninit : Nat → UInt8) (j : Nat) : UInt8 :=
  if j < dataLength m fs inode then fileByte m fs inode j else uninit j

def SeemsElf (m : Mem) (fs : FsInfo) (inode : Nat) (uninit : Nat → UInt8) : Prop :=
  Readable m fs inode ∧ ∀ j, j < 4 → checkByte m fs inode uninit j = elfMagic j

/-- What is taken for an executable is a regular file of at least four bytes. -/
def Guarded (sys : System) (command : List UInt8) (uninit : Nat → UInt8) : Prop :=
  WellFormed command → ∀ temp, namedEntry sys command = some temp →
    SeemsElf (checkMem sys uninit) sys.fs temp.inodeNum uninit →
      temp.fileType = 2 ∧ 4 ≤ dataLength (checkMem sys uninit) sys.fs temp.inodeNum

variable {sys : System} {fs : FsInfo} {m : Mem} {inode buf n : Nat} {command : List UInt8}
  {uninit : Nat → UInt8} {temp : Dentry}

/-- An empty file is executed if the array happens to hold the magic bytes. -/
example : SeemsElf (fun _ => 0) (fsInit (fun _ => 0) 0) 0 elfMagic := ⟨Or.inl rfl, fun _ _ => rfl⟩

end RedstoneOS.ExecutableFiles
