import RedstoneOS.Filesystem

namespace RedstoneOS.Execute

open KernelState Lib Library.ByteMemory Filesystem

/-- Memory as the process calls find it: the file system image, the bytes that begin at the
literal "shell", and the place of the local array `ELF_check_bytes`. -/
structure System where
  mem : Mem
  bootblk : Nat
  shell : List UInt8
  elfCheckBytes : Nat

def System.fs (sys : System) : FsInfo := fsInit sys.mem sys.bootblk

structure Program where
  inodeNum : Nat
  args : List UInt8

/-- Strings are the bytes from a pointer on; past the end of the list memory reads as NUL. -/
def byteAt (bytes : List UInt8) (i : Nat) : UInt8 := bytes.getD i 0

def commandName (command : List UInt8) : List UInt8 :=
  command.takeWhile (fun c => decide (c ≠ 0 ∧ c ≠ 32 ∧ c ≠ 10))

/-- The scan resumes one byte after the one that ended the name, whatever that byte is. -/
def commandArgs (command : List UInt8) : List UInt8 :=
  (command.drop ((commandName command).length + 1)).takeWhile (fun c => decide (c ≠ 0 ∧ c ≠ 10))

def bufLen : Nat := 32

def isElf (sys : System) (inode : Nat) (uninit : Nat → UInt8) : Bool :=
  let r := readData (fill sys.mem sys.elfCheckBytes uninit 4) sys.fs inode 0 sys.elfCheckBytes 4
  decide (r.1 ≠ -1 ∧ r.2 sys.elfCheckBytes = 0x7f ∧ r.2 (sys.elfCheckBytes + 1) = 0x45 ∧
    r.2 (sys.elfCheckBytes + 2) = 0x4c ∧ r.2 (sys.elfCheckBytes + 3) = 0x46)

/-- The tests `execute` makes before it looks at the process table. `uninit` is what the
uninitialised array `ELF_check_bytes` holds on entry. -/
def executeChecks (sys : System) (command : Option (List UInt8)) (uninit : Nat → UInt8) :
    Option Program :=
  match command with
  | none => none
  | some command =>
    if byteAt command 0 = 0 ∨ byteAt command 0 = 32 then none
    else if bufLen < (commandName command).length then none
    else if bufLen < (commandArgs command).length then none
    else match readDentryByName sys.mem sys.fs (byteAt (commandName command)) with
      | none => none
      | some temp =>
        if isElf sys temp.inodeNum uninit then some ⟨temp.inodeNum, commandArgs command⟩
        else none

def freeSlot (processState : Int → Int) : Option Int :=
  ([0, 1, 2, 3, 4, 5, 6] : List Int).find? (fun i => decide (processState i = 0))

/-- The search loop itself, which leaves `pid` alone when no slot is free. -/
def takeSlot (k : Kernel) : Kernel :=
  match freeSlot k.processState with
  | some i => { k with processState := Function.update k.processState i 1, pid := i }
  | none => k

/-- The terminal `execute` works for: the scheduled one while a tick starts a shell, the
displayed one afterwards. -/
def attachTerminal (k : Kernel) : Int :=
  if k.scheReady = 1 then k.currentTerminalId else k.terminalId

def stdEntry : FileEntry := ⟨some .terminal, 0, 0, 1⟩

def constructPcbEntries (pcbPointer : Int) (newPid : Int) (k : Kernel) : Kernel :=
  setPcb pcbPointer (fun p =>
    { p with
      PID := k.pid % 256
      esp0 := k.tss.esp0
      ss0 := k.tss.ss0 % 256
      fileArray := Function.update (Function.update p.fileArray 1 stdEntry) 0 stdEntry
      parent := newPid }) k

def storeArguments (pcbPointer : Int) (prog : Program) (k : Kernel) : Kernel :=
  setPcb pcbPointer (fun p =>
    { p with
      pcbExeArgs := prog.args ++ List.replicate (bufLen - prog.args.length) 0
      pcbArgSize := prog.args.length }) k

def storeContext (pcbPointer : Int) (r : Regs) (k : Kernel) : Kernel :=
  setPcb pcbPointer (fun p => { p with esp := r.esp, ebp := r.ebp, returnAdd := .haltRet }) k

/-- `execute` from the search for a slot to its `iret`. The bytes of the program image and
the entry point go to the user page and are not part of the kernel's state. -/
def spawn (prog : Program) (r : Regs) (k : Kernel) : Kernel :=
  let t := attachTerminal k
  let tempPid := k.terminalProcessInfo t
  let k := takeSlot k
  let k := { k with terminalProcessInfo := Function.update k.terminalProcessInfo t k.pid }
  let k := switchPd (userPageAddr k.pid) { k with scheReady := 0 }
  let createProcess := pcbAddr k.pid
  let k := constructPcbEntries createProcess tempPid k
  let k := storeArguments createProcess prog k
  let k := storeContext createProcess r k
  { k with tss := { esp0 := kernelStackTop k.pid, ss0 := kernelDs } }

/-- A call either returns to its caller or leaves through `iret` into the new process. -/
inductive ExecuteOutcome
  | ret (value : Int) (k : Kernel)
  | iret (k : Kernel)

def execute (sys : System) (command : Option (List UInt8)) (uninit : Nat → UInt8) (r : Regs)
    (k : Kernel) : ExecuteOutcome :=
  match executeChecks sys command uninit with
  | none => .ret (-1) k
  | some prog => if k.pid = 5 then .ret (-1) k else .iret (spawn prog r k)

def clearFileDescriptors (k : Kernel) : Kernel :=
  setPcb (getPcbAddr k) (fun p =>
    { p with fileArray := fun fd => if minFdNum ≤ fd ∧ fd < maxFileNum
        then { p.fileArray fd with flags := 0 } else p.fileArray fd }) k

/-- `halt` leaves through the `iret` of a new root shell or jumps to a stored address with
a stored stack. -/
inductive HaltOutcome
  | iret (k : Kernel)
  | jump (k : Kernel) (r : Regs) (target : CodeAddr)

def haltJump (status : UInt8) (currProcess : Int) (k : Kernel) : HaltOutcome :=
  let k := switchPd (userPageAddr k.pid) { k with globalReturnStatus := status }
  .jump k ⟨(k.pcbs currProcess).esp, (k.pcbs currProcess).ebp⟩ (k.pcbs currProcess).returnAdd

/-- `halt` up to the test of the parent. -/
def haltRelease (k : Kernel) : Kernel :=
  let currProcess := getPcbAddr k
  let k := { k with
    tss := { esp0 := (k.pcbs currProcess).esp0, ss0 := (k.pcbs currProcess).ss0 }
    pid := (k.pcbs currProcess).PID }
  let k := clearFileDescriptors k
  let k := { k with processState := Function.update k.processState k.pid 0 }
  let k := { k with pid := (k.pcbs currProcess).parent }
  { k with terminalProcessInfo := Function.update k.terminalProcessInfo k.currentTerminalId k.pid }

def halt (sys : System) (status : UInt8) (uninit : Nat → UInt8) (r : Regs) (k : Kernel) :
    HaltOutcome :=
  let currProcess := getPcbAddr k
  let k := haltRelease k
  if k.pid = -1 then
    match execute sys (some sys.shell) uninit r k with
    | .iret k => .iret k
    | .ret _ k => haltJump status currProcess k
  else haltJump status currProcess k

end RedstoneOS.Execute
