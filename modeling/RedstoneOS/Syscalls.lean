import RedstoneOS.Execute

namespace RedstoneOS.Syscalls

open KernelState Lib Library.ByteMemory Filesystem Execute

def entryAt (k : Kernel) (fd : Int) : FileEntry := (k.pcbs (getPcbAddr k)).fileArray fd

def setEntry (fd : Int) (f : FileEntry → FileEntry) (k : Kernel) : Kernel :=
  setPcb (getPcbAddr k) (setFile fd f) k

def freeDescriptor (k : Kernel) : Option Int :=
  ([2, 3, 4, 5, 6, 7] : List Int).find? (fun fd => decide ((entryAt k fd).flags = 0))

def openAs (temp : Dentry) : Option (FileOps × Nat) :=
  match temp.fileType with
  | 0 => some (.rtc, 0)
  | 1 => some (.directory, 0)
  | 2 => some (.file, temp.inodeNum)
  | _ => none

def openCall (sys : System) (filename : Option (List UInt8)) (k : Kernel) : Int × Kernel :=
  match filename with
  | none => (-1, k)
  | some filename =>
    match freeDescriptor k with
    | none => (-1, k)
    | some fd =>
      match readDentryByName sys.mem sys.fs (byteAt filename) with
      | none => (-1, k)
      | some temp =>
        match openAs temp with
        | none => (-1, k)
        | some (ops, inode) => (fd, setEntry fd (fun _ => ⟨some ops, inode, 0, 1⟩) k)

def closeCall (fd : Int) (k : Kernel) : Int × Kernel :=
  if fd < 2 ∨ maxFdNum < fd then (-1, k)
  else if (entryAt k fd).flags = 0 then (-1, k)
  else (0, setEntry fd (fun e => ⟨none, e.inode, 0, 0⟩) k)

/-- What the system call `read` does with its arguments: return at once, or enter the read
function of the descriptor's jump table. -/
inductive ReadDispatch
  | ret (value : Int)
  | enter (ops : FileOps)
  | nullCall
  deriving DecidableEq

def readDispatch (fd : Int) (buf : Nat) (k : Kernel) : ReadDispatch :=
  if maxFdNum < fd ∨ fd < 0 ∨ fd = 1 ∨ buf = 0 then .ret (-1)
  else if (entryAt k fd).flags = 0 then .ret (-1)
  else match (entryAt k fd).fOp with
    | none => .nullCall
    | some ops => .enter ops

/-- `read` where it ends in the file system; the terminal and the clock block instead. -/
def readCall (sys : System) (fd : Int) (buf : Nat) (nbytes : Int) (k : Kernel) (m : Mem) :
    Option (Int × Kernel × Mem) :=
  match readDispatch fd buf k with
  | .ret value => some (value, k, m)
  | .enter .file => some (fileRead sys.fs fd buf nbytes k m)
  | .enter .directory => some (dirRead sys.fs fd buf nbytes k m)
  | .enter .terminal => none
  | .enter .rtc => none
  | .nullCall => none

/-- The tests that `read` and `write` share, but for the standard descriptor that they bar. -/
def dispatchExcept (barred fd : Int) (buf : Nat) (k : Kernel) : ReadDispatch :=
  if maxFdNum < fd ∨ fd < 0 ∨ fd = barred ∨ buf = 0 then .ret (-1)
  else if (entryAt k fd).flags = 0 then .ret (-1)
  else match (entryAt k fd).fOp with
    | none => .nullCall
    | some ops => .enter ops

def writeDispatch (fd : Int) (buf : Nat) (k : Kernel) : ReadDispatch := dispatchExcept 0 fd buf k

/-- `write` changes nothing in the kernel. Files and directories are read-only; `device` is
what the terminal or the clock returns. -/
def writeCall (fd : Int) (buf : Nat) (device : Int) (k : Kernel) : Int :=
  match writeDispatch fd buf k with
  | .ret value => value
  | .enter .file => -1
  | .enter .directory => -1
  | .enter .terminal => device
  | .enter .rtc => device
  | .nullCall => device

def bufferSize : Nat := 1024

/-- The system call `getargs`, which clears all of the user's buffer before it copies. -/
def getargs (buf : Nat) (nbytes : Int) (k : Kernel) (m : Mem) : Int × Mem :=
  if buf = 0 then (-1, m)
  else if nbytes < (k.pcbs (getPcbAddr k)).pcbArgSize then (-1, m)
  else
    let m := fill m buf (fun _ => 0) bufferSize
    (0, fill m buf (byteAt (k.pcbs (getPcbAddr k)).pcbExeArgs)
      (k.pcbs (getPcbAddr k)).pcbArgSize.toNat)

theorem readDispatch_fd {fd : Int} {buf : Nat} {k : Kernel} {ops : FileOps}
    (h : readDispatch fd buf k = .enter ops) : 0 ≤ fd ∧ fd ≤ maxFdNum := by
  rw [readDispatch] at h
  by_cases hfd : maxFdNum < fd ∨ fd < 0 ∨ fd = 1 ∨ buf = 0
  · simp [hfd] at h
  · omega

theorem not_standard {fd : Int} (hfd : 2 ≤ fd ∧ fd ≤ maxFdNum) : ¬ (fd ≤ 1 ∨ maxFdNumber ≤ fd) := by
  simp only [maxFdNum, maxFdNumber] at hfd ⊢
  omega

theorem fileRead_kernel (fs : FsInfo) (fd : Int) (buf : Nat) (nbytes : Int) (k : Kernel)
    (mem : Mem) : (fileRead fs fd buf nbytes k mem).2.1 = k ∨
      ∃ pos, (fileRead fs fd buf nbytes k mem).2.1 = setFilePosition (pcbAddr k.pid) fd pos k := by
  rw [fileRead]
  split
  · exact Or.inl rfl
  · dsimp only
    split
    · exact Or.inr ⟨_, rfl⟩
    · exact Or.inl rfl

theorem dirRead_kernel (fs : FsInfo) (fd : Int) (buf : Nat) (nbytes : Int) (k : Kernel)
    (mem : Mem) :
    ∃ pos, (dirRead fs fd buf nbytes k mem).2.1 = setFilePosition (pcbAddr k.pid) fd pos k := by
  refine ⟨wrap (((k.pcbs (pcbAddr k.pid)).fileArray fd).filePosition + 1), ?_⟩
  rw [dirRead]
  dsimp only
  split
  · rfl
  · split
    · rfl
    · rfl

theorem readCall_kernel {sys : System} {fd : Int} {buf : Nat} {nbytes v : Int} {k k' : Kernel}
    {mem mem' : Mem} (h : readCall sys fd buf nbytes k mem = some (v, k', mem')) :
    k' = k ∨ ∃ pos, k' = setFilePosition (pcbAddr k.pid) fd pos k := by
  rw [readCall] at h
  split at h
  · obtain ⟨-, rfl, -⟩ := h
    exact Or.inl rfl
  · have hk := congrArg (fun r => r.2.1) (Option.some.inj h)
    obtain rfl : (fileRead sys.fs fd buf nbytes k mem).2.1 = k' := hk
    exact fileRead_kernel sys.fs fd buf nbytes k mem
  · have hk := congrArg (fun r => r.2.1) (Option.some.inj h)
    obtain rfl : (dirRead sys.fs fd buf nbytes k mem).2.1 = k' := hk
    exact Or.inr (dirRead_kernel sys.fs fd buf nbytes k mem)
  · simp at h
  · simp at h
  · simp at h

theorem openCall_cases (sys : System) (filename : Option (List UInt8)) (k : Kernel) :
    openCall sys filename k = (-1, k) ∨ ∃ fd ops inode, 2 ≤ fd ∧ fd ≤ maxFdNum ∧
      openCall sys filename k = (fd, setEntry fd (fun _ => ⟨some ops, inode, 0, 1⟩) k) := by
  cases filename with
  | none => exact Or.inl rfl
  | some filename =>
    rw [openCall]
    cases hfree : freeDescriptor k with
    | none => exact Or.inl rfl
    | some fd =>
      have hmem := List.mem_of_find?_eq_some hfree
      simp only [List.mem_cons, List.not_mem_nil, or_false] at hmem
      have hrange : 2 ≤ fd ∧ fd ≤ maxFdNum := by
        simp only [maxFdNum]
        omega
      dsimp only
      split
      · exact Or.inl rfl
      · split
        · exact Or.inl rfl
        · exact Or.inr ⟨fd, _, _, hrange.1, hrange.2, rfl⟩

theorem closeCall_cases (fd : Int) (k : Kernel) :
    closeCall fd k = (-1, k) ∧ ¬ (2 ≤ fd ∧ fd ≤ maxFdNum ∧ (entryAt k fd).flags ≠ 0) ∨
    closeCall fd k = (0, setEntry fd (fun e => ⟨none, e.inode, 0, 0⟩) k) ∧
      2 ≤ fd ∧ fd ≤ maxFdNum ∧ (entryAt k fd).flags ≠ 0 := by
  rw [closeCall]
  split
  next hfd => exact Or.inl ⟨rfl, by omega⟩
  next hfd =>
    split
    next hflags => exact Or.inl ⟨rfl, fun h => h.2.2 hflags⟩
    next hflags => exact Or.inr ⟨rfl, by omega, by omega, hflags⟩

theorem openCall_keeps {P : Kernel → Prop} {k : Kernel} (h : P k)
    (hset : ∀ fd f, P (setEntry fd f k)) (sys : System) (filename : Option (List UInt8)) :
    P (openCall sys filename k).2 := by
  obtain hfail | ⟨fd, ops, inode, -, -, hopen⟩ := openCall_cases sys filename k
  · rwa [hfail]
  · rw [hopen]
    apply hset

theorem closeCall_keeps {P : Kernel → Prop} {k : Kernel} (h : P k)
    (hset : ∀ fd f, P (setEntry fd f k)) (fd : Int) : P (closeCall fd k).2 := by
  obtain ⟨hfail, -⟩ | ⟨hclose, -⟩ := closeCall_cases fd k
  · rwa [hfail]
  · rw [hclose]
    apply hset

end RedstoneOS.Syscalls
