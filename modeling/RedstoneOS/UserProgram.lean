import RedstoneOS.SequentialReads
import RedstoneOS.UserStrings
import RedstoneOS.ConsoleOutput
import RedstoneOS.CallerBuffers

namespace RedstoneOS.UserProgram

open KernelState Lib Library.ByteMemory Filesystem ReadData Execute Syscalls ExecuteChecks
open SequentialReads Itoa Ece391Support UserStrings Library.SequentialReader

/-- A process between two system calls: the kernel, the memory it sees, the terminal that its
output goes to, and the lines that are going to be entered there. -/
structure Process where
  kernel : Kernel
  mem : Mem
  console : Keyboard.State
  typed : List (List UInt8)

def ece391Open (sys : System) (filename : List UInt8) (p : Process) : Int × Process :=
  let (fd, k) := openCall sys (some filename) p.kernel
  (fd, { p with kernel := k })

def ece391Close (fd : Int) (p : Process) : Int × Process :=
  let (value, k) := closeCall fd p.kernel
  (value, { p with kernel := k })

def ece391Getargs (buf : Nat) (nbytes : Int) (p : Process) : Int × Process :=
  let (value, m) := getargs buf nbytes p.kernel p.mem
  (value, { p with mem := m })

/-- A read of the terminal takes the next line, and does not return before there is one. A
read of the clock returns 0 at the next tick. -/
def ece391Read (sys : System) (fd : Int) (buf : Nat) (nbytes : Int) (p : Process) :
    Option (Int × Process) :=
  match readDispatch fd buf p.kernel with
  | .enter .terminal =>
    match p.typed with
    | [] => none
    | line :: typed =>
      let r := CallerBuffers.terminalRead buf nbytes
        (CallerBuffers.oneLine p.console.currentTerminalId line) p.mem
      some (r.1, { p with mem := r.2.2, typed := typed })
  | .enter .rtc => some (0, p)
  | _ => (readCall sys fd buf nbytes p.kernel p.mem).map
      fun r => (r.1, { p with kernel := r.2.1, mem := r.2.2 })

def storeByte (a : Nat) (c : UInt8) (p : Process) : Process :=
  { p with mem := Function.update p.mem a c }

/-- `rtc_write` takes the rates that are powers of two, and sets the chip to them. -/
def rtcWrite (rate : Nat) : Int :=
  if rate ∈ [2, 4, 8, 16, 32, 64, 128, 256, 512, 1024] then 0 else -1

def ece391Write (fd : Int) (addr : Nat) (buf : Memory UInt8) (nbytes : Int) (p : Process) :
    Option (Int × Process) :=
  match writeDispatch fd addr p.kernel with
  | .enter .terminal =>
    let (value, console) := Keyboard.terminalWrite (some buf) nbytes p.console
    some (value, { p with console := console })
  | .ret value => some (value, p)
  | .enter .file => some (-1, p)
  | .enter .directory => some (-1, p)
  | .enter .rtc => some (rtcWrite (load32 buf 0), p)
  | .nullCall => none

def ece391Fdputs (fd : Int) (s : Nat) (p : Process) : Option Process :=
  (ece391Write fd s (fun i => p.mem (s + i)) (ece391Strlen p.mem s) p).map Prod.snd

/-- `ece391_fdputs` of a literal, which stands somewhere in the image of the program. -/
def fdputsLiteral (fd : Int) (s : List UInt8) (p : Process) : Option Process :=
  (ece391Write fd 1 (byteAt s) s.length p).map Prod.snd

@[irreducible] def emit (l : List UInt8) (k : Keyboard.State) : Keyboard.State :=
  l.foldl (fun k c => Keyboard.putc c false k) k

theorem emit_eq (l : List UInt8) (k : Keyboard.State) :
    emit l k = l.foldl (fun k c => Keyboard.putc c false k) k := by rw [emit]

theorem emit_append (l l' : List UInt8) (k : Keyboard.State) :
    emit (l ++ l') k = emit l' (emit l k) := by
  simp only [emit_eq, List.foldl_append]

@[simp] theorem emit_nil (k : Keyboard.State) : emit [] k = k := emit_eq [] k

def Process.puts (l : List UInt8) (p : Process) : Process := { p with console := emit l p.console }

@[simp] theorem Process.puts_kernel (l : List UInt8) (p : Process) :
    (p.puts l).kernel = p.kernel := rfl

@[simp] theorem Process.puts_mem (l : List UInt8) (p : Process) : (p.puts l).mem = p.mem := rfl

@[simp] theorem Process.puts_typed (l : List UInt8) (p : Process) :
    (p.puts l).typed = p.typed := rfl

@[simp] theorem Process.puts_console (l : List UInt8) (p : Process) :
    (p.puts l).console = emit l p.console := rfl

theorem Process.puts_puts (l l' : List UInt8) (p : Process) :
    (p.puts l).puts l' = p.puts (l ++ l') := by
  simp only [Process.puts, emit_append]

@[simp] theorem Process.puts_nil (p : Process) : p.puts [] = p := by
  rw [Process.puts, emit_nil]

structure Stdout (k : Kernel) : Prop where
  used : (entryAt k 1).flags ≠ 0
  ops : (entryAt k 1).fOp = some .terminal

structure Stdin (k : Kernel) : Prop where
  used : (entryAt k 0).flags ≠ 0
  ops : (entryAt k 0).fOp = some .terminal

variable {sys : System} {p : Process} {k : Kernel} {l : List UInt8}

theorem stdout_setEntry {fd : Int} (hfd : 2 ≤ fd) (f : FileEntry → FileEntry) (h : Stdout k) :
    Stdout (setEntry fd f k) := by
  have hkeep : entryAt (setEntry fd f k) 1 = entryAt k 1 := by
    rw [entryAt_setEntry, if_neg (by omega)]
  exact ⟨hkeep ▸ h.used, hkeep ▸ h.ops⟩

theorem write_stdout (h : Stdout p.kernel) {addr : Nat} (haddr : addr ≠ 0) (buf : Memory UInt8)
    (n : Nat) : ece391Write 1 addr buf n p = some ((n : Int), p.puts (readBytes buf 0 n)) := by
  have hvalid : ¬ (maxFdNum < 1 ∨ (1 : Int) < 0 ∨ (1 : Int) = 0 ∨ addr = 0) := by
    simp only [maxFdNum]
    omega
  have hdispatch : writeDispatch 1 addr p.kernel = .enter .terminal := by
    simp only [writeDispatch, dispatchExcept, if_neg hvalid, if_neg h.used, h.ops]
  have hwrite : Keyboard.terminalWrite (some buf) n p.console =
      ((n : Int), emit (readBytes buf 0 n) p.console) := by
    rw [Keyboard.terminalWrite]
    simp only [if_neg (show ¬ ((n : Int) < 0) by omega), Int.toNat_natCast,
      Keyboard.terminalWriteLoop_eq, emit_eq]
  simp only [ece391Write, hdispatch, hwrite]
  rfl

theorem readBytes_byteAt (l : List UInt8) : readBytes (byteAt l) 0 l.length = l := by
  simp only [readBytes, Nat.zero_add]
  have h := range_map_getD l 0 (le_refl l.length)
  rwa [Nat.sub_self, List.replicate_zero, List.append_nil] at h

theorem readBytes_shift (m : Memory UInt8) (s n : Nat) :
    readBytes (fun i => m (s + i)) 0 n = readBytes m s n := by
  simp only [readBytes, Nat.zero_add]

theorem fdputsLiteral_stdout (h : Stdout p.kernel) (s : List UInt8) :
    fdputsLiteral 1 s p = some (p.puts s) := by
  rw [fdputsLiteral, write_stdout h Nat.one_ne_zero, readBytes_byteAt]
  rfl

theorem fdputs_stdout (h : Stdout p.kernel) {s : Nat} (hs : s ≠ 0) :
    ece391Fdputs 1 s p = some (p.puts (textAt p.mem s)) := by
  rw [ece391Fdputs, write_stdout h hs, readBytes_shift]
  rfl

theorem fdputsLiteral_puts (h : Stdout p.kernel) (l s : List UInt8) :
    fdputsLiteral 1 s (p.puts l) = some (p.puts (l ++ s)) := by
  rw [fdputsLiteral_stdout (p := p.puts l) h, Process.puts_puts]

theorem fdputs_puts (h : Stdout p.kernel) {s : Nat} (hs : s ≠ 0) (l : List UInt8) :
    ece391Fdputs 1 s (p.puts l) = some (p.puts (l ++ textAt p.mem s)) := by
  rw [fdputs_stdout (p := p.puts l) h hs, Process.puts_puts, Process.puts_mem]

theorem setEntry_setEntry (fd : Int) (f g : FileEntry → FileEntry) (k : Kernel) :
    setEntry fd f (setEntry fd g k) = setEntry fd (fun e => f (g e)) k := by
  simp only [setEntry, setPcb, setFile, getPcbAddr, Function.update_self, Function.update_idem]

theorem setEntry_self {fd : Int} {f : FileEntry → FileEntry} {k : Kernel}
    (h : f (entryAt k fd) = entryAt k fd) : setEntry fd f k = k := by
  have hfile : setFile fd f (k.pcbs (getPcbAddr k)) = k.pcbs (getPcbAddr k) := by
    rw [setFile, show (k.pcbs (getPcbAddr k)).fileArray fd = entryAt k fd from rfl, h, entryAt,
      Function.update_eq_self]
  rw [setEntry, setPcb, hfile, Function.update_eq_self]

/-- The process has read a file up to `pos` since it was in the state `k₀`, `m₀`. -/
structure FileAt (sys : System) (k₀ : Kernel) (m₀ : Mem) (fd : Int) (pos : Nat) (p : Process) :
    Prop where
  opened : OpenedFile sys k₀ m₀ fd
  own : k₀.pid = k₀.terminalProcessInfo k₀.currentTerminalId
  kernel : p.kernel = setEntry fd (fun e => { e with filePosition := pos }) k₀
  image : SameImage sys.fs p.mem m₀
  inside : pos ≤ (fileOf sys k₀ m₀ fd).length

variable {k₀ : Kernel} {m₀ : Mem} {fd : Int} {pos : Nat}

theorem FileAt.reading (h : FileAt sys k₀ m₀ fd pos p) :
    Reading sys k₀ m₀ (fun fd' => fd' = fd) (fun _ => pos) (p.kernel, p.mem) where
  own := by
    rw [h.kernel, getPcbAddr_setEntry, getPcbAddr, ← h.own]
    rfl
  image := h.image
  entries fd' ho := by rw [ho, h.kernel, entryAt_setEntry, if_pos rfl]
  inside fd' ho := by
    have hi := h.inside
    rwa [ho, ← List.length_range (n := dataLength _ _ _), ← List.length_map]

theorem fileAt_start (ho : OpenedFile sys k₀ m₀ fd)
    (hown : k₀.pid = k₀.terminalProcessInfo k₀.currentTerminalId) (hk : p.kernel = k₀)
    (hm : SameImage sys.fs p.mem m₀) : FileAt sys k₀ m₀ fd 0 p where
  opened := ho
  own := hown
  kernel := by
    rw [hk, setEntry_self]
    rw [← ho.position]
  image := hm
  inside := Nat.zero_le _

theorem read_file (hm : Mounted sys.fs) (h : FileAt sys k₀ m₀ fd pos p) {buf n : Nat}
    (hb : GoodBuffer sys.fs ⟨fd, buf, n⟩) {chunk : List UInt8}
    (hchunk : chunk = ((fileOf sys k₀ m₀ fd).drop pos).take n) :
    ∃ p', ece391Read sys fd buf n p = some ((chunk.length : Int), p') ∧
      FileAt sys k₀ m₀ fd (pos + chunk.length) p' ∧ p'.mem = place p.mem buf chunk ∧
      p'.console = p.console ∧ p'.typed = p.typed := by
  have hread := read_step hm h.reading (c := ⟨fd, buf, n⟩) rfl h.opened hb rfl
  have hlist : next (fileOf sys k₀ m₀) (fun _ => pos) fd n = chunk := hchunk.symm
  rw [next_fileBytes] at hlist
  have hcount : min n (dataLength m₀ sys.fs (entryAt k₀ fd).inode - pos) = chunk.length := by
    rw [← hlist, List.length_map, List.length_range]
  have hstep := reading_step h.reading (c := ⟨fd, buf, n⟩) hb hcount.symm
  simp only [Int.toNat_natCast, hcount, fill_eq_place] at hread hlist hstep
  rw [hlist] at hread hstep
  have hpast : pos + chunk.length ≤ (fileOf sys k₀ m₀ fd).length := by
    have hi := h.inside
    rw [hchunk, List.length_take, List.length_drop]
    omega
  have hentry : entryAt p.kernel fd = { entryAt k₀ fd with filePosition := pos } := by
    rw [h.kernel, entryAt_setEntry, if_pos rfl]
  have hdispatch : readDispatch fd buf p.kernel = .enter .file := by
    refine readDispatch_file h.opened.valid hb.notNull ?_ ?_
    · rw [hentry]
      exact h.opened.used
    · rw [hentry]
      exact h.opened.ops
  refine ⟨{ p with
    kernel := setEntry fd (fun e => { e with filePosition := pos + chunk.length }) p.kernel
    mem := place p.mem buf chunk }, ?_, ⟨h.opened, h.own, ?_, hstep.image, hpast⟩, rfl, rfl, rfl⟩
  · simp only [ece391Read, hdispatch, hread, Option.map_some]
  · dsimp only
    rw [h.kernel, setEntry_setEntry]

/-- What the proofs use of a local array of a program. It lies in the user window, where there is
no kernel data, so that the descriptors, which `Mem` does not hold, are not under it. -/
structure UserBuffer (fs : FsInfo) (buf n : Nat) : Prop where
  notNull : buf ≠ 0
  fits : buf + n ≤ 4294967296
  outside : Outside fs buf n

theorem UserBuffer.good {fs : FsInfo} {buf n off len : Nat} (h : UserBuffer fs buf n)
    (hin : off + len ≤ n) (hsmall : len < 2147483648) (fd : Int) :
    GoodBuffer fs ⟨fd, buf + off, len⟩ := by
  have hn := h.notNull
  have hf := h.fits
  have ho := h.outside
  simp only [Outside] at ho
  refine ⟨Int.natCast_nonneg len, ?_, ?_, ?_, ?_⟩
  · dsimp only
    omega
  · dsimp only
    omega
  · dsimp only
    rw [Int.toNat_natCast]
    omega
  · dsimp only
    rw [Outside, Int.toNat_natCast]
    omega

theorem UserBuffer.sameImage {fs : FsInfo} {buf n : Nat} {m m' : Mem} (h : UserBuffer fs buf n)
    (hm : ChangedIn buf n m m') : SameImage fs m' m := hm.agreeOn h.outside

theorem FileAt.changed {p' : Process} (h : FileAt sys k₀ m₀ fd pos p) (hk : p'.kernel = p.kernel)
    (hm : SameImage sys.fs p'.mem p.mem) : FileAt sys k₀ m₀ fd pos p' :=
  ⟨h.opened, h.own, hk.trans h.kernel, agreeOn_trans hm h.image, h.inside⟩

theorem FileAt.stdout (h : FileAt sys k₀ m₀ fd pos p) (hout : Stdout k₀) : Stdout p.kernel := by
  rw [h.kernel]
  exact stdout_setEntry h.opened.valid.1 _ hout

theorem open_entry {filename : List UInt8} {dentry : Dentry} {ops : FileOps} {inode : Nat}
    (hfree : freeDescriptor p.kernel = some fd)
    (hname : readDentryByName sys.mem sys.fs (byteAt filename) = some dentry)
    (hops : openAs dentry = some (ops, inode)) : ece391Open sys filename p =
      (fd, { p with kernel := setEntry fd (fun _ => ⟨some ops, inode, 0, 1⟩) p.kernel }) := by
  simp only [ece391Open, openCall, hfree, hname, hops]

theorem openAs_file {dentry : Dentry} (htype : dentry.fileType = 2) :
    openAs dentry = some (.file, dentry.inodeNum) := by
  simp only [openAs, htype]

theorem freeDescriptor_range (hfree : freeDescriptor k = some fd) : 2 ≤ fd ∧ fd ≤ maxFdNum := by
  have hmem := List.mem_of_find?_eq_some hfree
  simp only [List.mem_cons, List.not_mem_nil, or_false] at hmem
  simp only [maxFdNum]
  omega

theorem openedFile_setEntry (hfree : freeDescriptor k = some fd) {m : Mem} {inode : Nat}
    (hfile : RegularFile m sys.fs inode) :
    OpenedFile sys (setEntry fd (fun _ => ⟨some .file, inode, 0, 1⟩) k) m fd := by
  have hentry : entryAt (setEntry fd (fun _ => ⟨some .file, inode, 0, 1⟩) k) fd =
      ⟨some .file, inode, 0, 1⟩ := by rw [entryAt_setEntry, if_pos rfl]
  refine ⟨freeDescriptor_range hfree, ?_, ?_, ?_, ?_⟩ <;> rw [hentry]
  · exact Nat.one_ne_zero
  · exact hfile

theorem FileAt.close (h : FileAt sys k₀ m₀ fd pos p) : ece391Close fd p =
    (0, { p with kernel := setEntry fd (fun e => ⟨none, e.inode, 0, 0⟩) k₀ }) := by
  have hentry : entryAt p.kernel fd = { entryAt k₀ fd with filePosition := pos } := by
    rw [h.kernel, entryAt_setEntry, if_pos rfl]
  have hvalid := h.opened.valid
  obtain ⟨-, hno⟩ | ⟨hclose, -⟩ := closeCall_cases fd p.kernel
  · refine absurd ⟨hvalid.1, hvalid.2, ?_⟩ hno
    rw [hentry]
    exact h.opened.used
  · rw [ece391Close, hclose, h.kernel, setEntry_setEntry]

structure Arguments (k : Kernel) (args : List UInt8) : Prop where
  bytes : (k.pcbs (getPcbAddr k)).pcbExeArgs = args
  size : (k.pcbs (getPcbAddr k)).pcbArgSize = args.length
  chars : 0 ∉ args

theorem getargs_text {args : List UInt8} (h : Arguments p.kernel args) {buf : Nat} (hbuf : buf ≠ 0)
    (hlen : args.length < 1024) : ∃ m', ece391Getargs buf 1024 p = (0, { p with mem := m' }) ∧
      ChangedIn buf 1024 p.mem m' ∧ HoldsText (fun j => m' (buf + j)) args := by
  have hfits : ¬ ((1024 : Int) < (args.length : Int)) := by omega
  refine ⟨fill (fill p.mem buf (fun _ => 0) bufferSize) buf (byteAt args) args.length, ?_, ?_,
    h.chars, fun j hj => ?_⟩
  · simp only [ece391Getargs, getargs, if_neg hbuf, h.bytes, h.size, if_neg hfits,
      Int.toNat_natCast]
  · intro x hx
    rw [fill_outside _ _ _ (by omega), fill_outside _ _ _ (by simp only [bufferSize]; omega)]
  · obtain hlt | rfl := Nat.lt_or_eq_of_le hj
    · exact fill_inside _ _ _ hlt
    · rw [byteAt_end]
      rw [fill_outside _ _ _ (by omega), fill_inside _ _ _ (by simp only [bufferSize]; omega)]

def noteBytes : List (Nat × UInt8) :=
  [(0x400000, 3), (0x400004, 1), (0x400008, 1),
    (0x400040, 46), (0x400060, 1),
    (0x400080, 110), (0x400081, 111), (0x400082, 116), (0x400083, 101), (0x4000a0, 2),
    (0x4000c0, 114), (0x4000c1, 116), (0x4000c2, 99),
    (0x401000, 5),
    (0x402000, 97), (0x402001, 98), (0x402002, 10), (0x402003, 99), (0x402004, 100),
    (0x8100000, 99),
    (0x8100010, 110), (0x8100011, 111), (0x8100012, 116), (0x8100013, 101)]

def noteMem : Mem := fun a => (noteBytes.lookup a).getD 0

def noteSystem : System := ⟨noteMem, 0x400000, ascii "shell", 0x7ff000⟩

def noteKernel : Kernel :=
  { tinyKernel with
    pcbs := fun _ =>
      { tinyKernel.pcbs 0 with
        fileArray := fun fd => if fd ≤ 1 then ⟨some .terminal, 0, 0, 1⟩ else ⟨none, 0, 0, 0⟩
        pcbExeArgs := ascii "note"
        pcbArgSize := 4 } }

def noteProcess : Process := ⟨noteKernel, noteMem, Keyboard.beforeClear fun _ => 0, []⟩

theorem noteFile : RegularFile noteMem noteSystem.fs 0 := by
  refine ⟨by decide, by decide, fun i hi => ?_⟩
  have hl : dataLength noteMem noteSystem.fs 0 / blockSize = 0 := by decide
  rw [hl, Nat.le_zero] at hi
  subst hi
  decide

theorem noteStdout : Stdout noteKernel := ⟨by decide, by decide⟩

theorem noteBuffer {n : Nat} (hn : n ≤ 2048) : UserBuffer noteSystem.fs 0x8200000 n :=
  ⟨by decide, by omega, Or.inr (by decide)⟩

end RedstoneOS.UserProgram
