import RedstoneOS.UserProgram
import RedstoneOS.Directory

namespace RedstoneOS.FileTools

open KernelState Lib Library.ByteMemory Filesystem ReadData Execute Syscalls ExecuteChecks
open SequentialReads Directory Itoa Ece391Support UserStrings UserProgram
open Screen ScreenCells ConsoleOutput CursorBounds Library.Console

def catLoop (sys : System) (fd : Int) (buf : Nat) : Nat → Process → Option (Int × Process)
  | 0, _ => none
  | fuel + 1, p => do
    let (cnt, p) ← ece391Read sys fd buf ((1024 : Nat) : Int) p
    if cnt = 0 then some (0, p)
    else if cnt = -1 then (fdputsLiteral 1 (ascii "file read failed\n") p).map fun p => (3, p)
    else do
      let (written, p) ← ece391Write 1 buf (fun i => p.mem (buf + i)) cnt p
      if written = -1 then some (3, p) else catLoop sys fd buf fuel p

def cat (sys : System) (fuel buf : Nat) (p : Process) : Option (Int × Process) :=
  let (args, p) := ece391Getargs buf 1024 p
  if args ≠ 0 then (fdputsLiteral 1 (ascii "could not read arguments\n") p).map fun p => (3, p)
  else
    let (fd, p) := ece391Open sys (textAt p.mem buf) p
    if fd = -1 then (fdputsLiteral 1 (ascii "file not found\n") p).map fun p => (2, p)
    else catLoop sys fd buf fuel p

def sbufsize : Nat := 33

def lsLoop (sys : System) (fd : Int) (buf : Nat) : Nat → Process → Option (Int × Process)
  | 0, _ => none
  | fuel + 1, p => do
    let (cnt, p) ← ece391Read sys fd buf ((sbufsize - 1 : Nat) : Int) p
    if cnt = 0 then some (0, p)
    else if cnt = -1 then
      (fdputsLiteral 1 (ascii "directory entry read failed\n") p).map fun p => (3, p)
    else do
      let p := { p with mem := Function.update p.mem (buf + cnt.toNat) 10 }
      let (written, p) ← ece391Write 1 buf (fun i => p.mem (buf + i)) (cnt + 1) p
      if written = -1 then some (3, p) else lsLoop sys fd buf fuel p

def ls (sys : System) (fuel buf : Nat) (p : Process) : Option (Int × Process) :=
  let (fd, p) := ece391Open sys (ascii ".") p
  if fd = -1 then (fdputsLiteral 1 (ascii "directory open failed\n") p).map fun p => (2, p)
  else lsLoop sys fd buf fuel p

/-- The names that reads of the directory return, up to the first that is empty. -/
def listedNames (m : Mem) (fs : FsInfo) (pos : Nat) : List (List UInt8) :=
  (((List.range (fs.fileSize - 1)).drop pos).map (entryName m fs)).takeWhile (fun n => n ≠ [])

variable {sys : System} {p : Process} {m₀ : Mem} {k₀ : Kernel} {fd : Int} {pos buf : Nat}

theorem listedNames_end {m : Mem} {fs : FsInfo} (h : fs.fileSize ≤ 1 + pos) :
    listedNames m fs pos = [] := by
  rw [listedNames, List.drop_eq_nil_of_le (by rw [List.length_range]; omega)]
  rfl

theorem listedNames_next {m : Mem} {fs : FsInfo} (h : 1 + pos < fs.fileSize) :
    listedNames m fs pos = if entryName m fs pos = [] then []
      else entryName m fs pos :: listedNames m fs (pos + 1) := by
  have hlt : pos < (List.range (fs.fileSize - 1)).length := by
    rw [List.length_range]
    omega
  rw [listedNames, List.drop_eq_getElem_cons hlt, List.map_cons, List.takeWhile_cons,
    List.getElem_range]
  split
  next hne => rw [if_neg (by simpa using hne), listedNames]
  next hnil => rw [if_pos (by simpa using hnil)]

structure DirAt (sys : System) (m₀ : Mem) (fd : Int) (pos : Nat) (p : Process) : Prop where
  listing : Listing sys m₀ fd pos (p.kernel, p.mem)
  valid : 2 ≤ fd ∧ fd ≤ maxFdNum
  stdout : Stdout p.kernel

theorem read_entry (hn : sys.fs.fileSize ≤ 63) (h : DirAt sys m₀ fd pos p) {n : Nat}
    (hb : GoodBuffer sys.fs ⟨fd, buf, n⟩) (hlen : 32 ≤ n) (hpos : pos < sys.fs.fileSize + 1)
    (hends : 1 + pos < sys.fs.fileSize → NameEnds m₀ sys.fs pos) :
    ∃ p', DirAt sys m₀ fd (pos + 1) p' ∧ p'.console = p.console ∧ p'.typed = p.typed ∧
      (sys.fs.fileSize ≤ 1 + pos → ece391Read sys fd buf n p = some (0, p')) ∧
      (1 + pos < sys.fs.fileSize →
        ece391Read sys fd buf n p = some (((entryName m₀ sys.fs pos).length : Int), p') ∧
        readBytes p'.mem buf (entryName m₀ sys.fs pos).length = entryName m₀ sys.fs pos) := by
  obtain ⟨value, ⟨k', m'⟩, hread, hnext, hanswer⟩ := dir_step hn h.listing h.valid (by omega)
    (c := ⟨fd, buf, n⟩) rfl hb (by dsimp only; omega)
  have hcall : ece391Read sys fd buf n p = some (value, { p with kernel := k', mem := m' }) := by
    have hdispatch := readDispatch_file h.valid hb.notNull h.listing.used h.listing.ops
    simp only [ece391Read, hdispatch, hread, Option.map_some]
  have hstdout : Stdout k' := by
    obtain hsame | ⟨q, hset⟩ := readCall_kernel hread
    · rw [hsame]
      exact h.stdout
    · have hown : pcbAddr p.kernel.pid = getPcbAddr p.kernel := h.listing.own
      rw [hset, setFilePosition, hown]
      exact stdout_setEntry h.valid.1 _ h.stdout
  refine ⟨{ p with kernel := k', mem := m' }, ⟨hnext, h.valid, hstdout⟩, rfl, rfl, fun hend => ?_, fun hin => ?_⟩
  · have hvalue : value = 0 := (hanswer.past hend).1
    rw [hcall, hvalue]
  · have hname : (entryName m₀ sys.fs pos).length = nameLength m₀ sys.fs pos := readBytes_length _ _ _
    have hvalue : value = (nameLength m₀ sys.fs pos : Int) := (hanswer.value hin).mpr (hends hin)
    have hbytes := hanswer.name hin (hends hin)
    dsimp only at hbytes
    rw [hvalue, Int.toNat_natCast] at hbytes
    exact ⟨by rw [hcall, hname, hvalue], by rw [hname, hbytes]⟩

theorem readBytes_store (m : Mem) (a n : Nat) (c : UInt8) :
    readBytes (Function.update m (a + n) c) a (n + 1) = readBytes m a n ++ [c] := by
  have hbefore : readBytes (Function.update m (a + n) c) a n = readBytes m a n :=
    readBytes_congr fun x _ hx => Function.update_of_ne (by omega) _ _
  rw [readBytes_append, hbefore]
  simp [readBytes]

theorem DirAt.changed {p' : Process} (h : DirAt sys m₀ fd pos p) (hk : p'.kernel = p.kernel)
    (hm : SameImage sys.fs p'.mem p.mem) : DirAt sys m₀ fd pos p' := by
  have hl := h.listing
  have hs := h.stdout
  rw [← hk] at hl hs
  exact ⟨⟨hl.own, agreeOn_trans hm hl.image, hl.ops, hl.used, hl.position⟩, h.valid, hs⟩

theorem lsLoop_eq (hn : sys.fs.fileSize ≤ 63) (hbuf : UserBuffer sys.fs buf sbufsize)
    (hends : ∀ i, 1 + i < sys.fs.fileSize → NameEnds m₀ sys.fs i) {fuel : Nat}
    (h : DirAt sys m₀ fd pos p) (hpos : pos < sys.fs.fileSize + 1)
    (hfuel : sys.fs.fileSize + 1 - pos ≤ fuel) :
    ∃ p', lsLoop sys fd buf fuel p = some (0, p') ∧ p'.typed = p.typed ∧
      p'.console = emit ((listedNames m₀ sys.fs pos).flatMap fun n => n ++ [10]) p.console := by
  induction fuel generalizing p pos with
  | zero => omega
  | succ fuel ih =>
    have hgood := hbuf.good (by decide : 0 + (sbufsize - 1) ≤ sbufsize) (by decide) fd
    rw [Nat.add_zero] at hgood
    obtain ⟨q, hq, hconsole, htyped, hpast, hentry⟩ :=
      read_entry hn h hgood (by decide) hpos (hends pos)
    by_cases hin : 1 + pos < sys.fs.fileSize
    · obtain ⟨hread, hbytes⟩ := hentry hin
      have hlen : (entryName m₀ sys.fs pos).length ≤ 32 := by
        rw [entryName, readBytes_length]
        exact nameLength_le m₀ sys.fs pos
      rw [listedNames_next hin]
      generalize entryName m₀ sys.fs pos = name at *
      simp only [lsLoop, hread, Option.bind_eq_bind, Option.bind_some]
      by_cases hempty : name = []
      · subst hempty
        exact ⟨q, rfl, htyped, by rw [if_pos rfl, hconsole, List.flatMap_nil, emit_nil]⟩
      · have hpositive := List.length_pos_iff.mpr hempty
        have hnotZero : ¬ ((name.length : Int) = 0) := by omega
        have hnotFail : ¬ ((name.length : Int) = -1) := by omega
        have hstored : DirAt sys m₀ fd (pos + 1)
            { q with mem := Function.update q.mem (buf + name.length) 10 } :=
          hq.changed rfl (hbuf.sameImage (changedIn_update _ _ (by omega) (by
            simp only [sbufsize]
            omega)))
        have hwrite := write_stdout hstored.stdout hbuf.notNull
          (fun i => Function.update q.mem (buf + name.length) 10 (buf + i)) (name.length + 1)
        rw [readBytes_shift, readBytes_store, hbytes, Int.natCast_add, Int.natCast_one] at hwrite
        simp only [if_neg hnotZero, if_neg hnotFail, Int.toNat_natCast, hwrite, Option.bind_some,
          if_neg (show ¬ ((name.length : Int) + 1 = -1) by omega), if_neg hempty]
        obtain ⟨p', hrun, ht, hc⟩ := ih (p := Process.puts (name ++ [10])
          { q with mem := Function.update q.mem (buf + name.length) 10 })
          (hstored.changed rfl fun _ _ _ => rfl) (by omega) (by omega)
        refine ⟨p', hrun, ht.trans htyped, ?_⟩
        rw [hc, List.flatMap_cons, emit_append, Process.puts_console, hconsole]
    · refine ⟨q, ?_, htyped, ?_⟩
      · simp only [lsLoop, hpast (by omega), Option.bind_eq_bind, Option.bind_some, if_true]
      · rw [listedNames_end (by omega), hconsole, List.flatMap_nil, emit_nil]

theorem catLoop_file (hm : Mounted sys.fs) (hbuf : UserBuffer sys.fs buf 1024) (hout : Stdout k₀)
    {fuel : Nat} (h : FileAt sys k₀ m₀ fd pos p)
    (hfuel : (fileOf sys k₀ m₀ fd).length - pos < fuel) :
    ∃ p', catLoop sys fd buf fuel p = some (0, p') ∧ p'.typed = p.typed ∧
      p'.console = emit ((fileOf sys k₀ m₀ fd).drop pos) p.console := by
  induction fuel generalizing p pos with
  | zero => omega
  | succ fuel ih =>
    have hgood := hbuf.good (by decide : 0 + 1024 ≤ 1024) (by decide) fd
    obtain ⟨q, hread, hfile, hmem, hconsole, htyped⟩ := read_file hm h hgood rfl
    generalize hchunk : ((fileOf sys k₀ m₀ fd).drop pos).take 1024 = chunk at *
    have hinside := h.inside
    have hlen : chunk.length = min 1024 ((fileOf sys k₀ m₀ fd).length - pos) := by
      rw [← hchunk, List.length_take, List.length_drop]
    rw [Nat.add_zero] at hread hmem
    simp only [catLoop, hread, Option.bind_eq_bind, Option.bind_some]
    by_cases hend : chunk.length = 0
    · have hrest : (fileOf sys k₀ m₀ fd).drop pos = [] := List.drop_eq_nil_of_le (by omega)
      rw [hend, if_pos Int.natCast_zero]
      exact ⟨q, rfl, htyped, by rw [hrest, hconsole, emit_nil]⟩
    · have hwrite := write_stdout (hfile.stdout hout) hbuf.notNull (fun i => q.mem (buf + i))
        chunk.length
      rw [readBytes_shift, hmem, readBytes_place, ← hmem] at hwrite
      simp only [if_neg (show ¬ ((chunk.length : Int) = 0) by omega),
        if_neg (show ¬ ((chunk.length : Int) = -1) by omega), hwrite, Option.bind_some]
      obtain ⟨p', hrun, ht, hc⟩ := ih (p := q.puts chunk) (hfile.changed rfl fun _ _ _ => rfl)
        (by omega)
      refine ⟨p', hrun, ht.trans htyped, ?_⟩
      have hsplit := List.take_append_drop 1024 ((fileOf sys k₀ m₀ fd).drop pos)
      have hdrop : (fileOf sys k₀ m₀ fd).drop (pos + chunk.length) =
          ((fileOf sys k₀ m₀ fd).drop pos).drop 1024 := by
        rw [List.drop_drop, hlen]
        obtain hle | hgt := Nat.le_total 1024 ((fileOf sys k₀ m₀ fd).length - pos)
        · rw [Nat.min_eq_left hle]
        · rw [List.drop_eq_nil_of_le (by omega), List.drop_eq_nil_of_le (by omega)]
      rw [hc, Process.puts_console, hconsole, ← emit_append, hdrop, ← hchunk, hsplit]

theorem catLoop_directory (hn : sys.fs.fileSize ≤ 63) (hbuf : UserBuffer sys.fs buf 1024)
    (hends : ∀ i, 1 + i < sys.fs.fileSize → NameEnds m₀ sys.fs i) {fuel : Nat}
    (h : DirAt sys m₀ fd pos p) (hpos : pos < sys.fs.fileSize + 1)
    (hfuel : sys.fs.fileSize + 1 - pos ≤ fuel) :
    ∃ p', catLoop sys fd buf fuel p = some (0, p') ∧ p'.typed = p.typed ∧
      p'.console = emit (listedNames m₀ sys.fs pos).flatten p.console := by
  induction fuel generalizing p pos with
  | zero => omega
  | succ fuel ih =>
    have hgood := hbuf.good (by decide : 0 + 1024 ≤ 1024) (by decide) fd
    rw [Nat.add_zero] at hgood
    obtain ⟨q, hq, hconsole, htyped, hpast, hentry⟩ :=
      read_entry hn h hgood (by decide) hpos (hends pos)
    by_cases hin : 1 + pos < sys.fs.fileSize
    · obtain ⟨hread, hbytes⟩ := hentry hin
      rw [listedNames_next hin]
      generalize entryName m₀ sys.fs pos = name at *
      simp only [catLoop, hread, Option.bind_eq_bind, Option.bind_some]
      by_cases hempty : name = []
      · subst hempty
        exact ⟨q, rfl, htyped, by rw [if_pos rfl, hconsole, List.flatten_nil, emit_nil]⟩
      · have hpositive := List.length_pos_iff.mpr hempty
        have hwrite := write_stdout hq.stdout hbuf.notNull (fun i => q.mem (buf + i)) name.length
        rw [readBytes_shift, hbytes] at hwrite
        simp only [if_neg (show ¬ ((name.length : Int) = 0) by omega),
          if_neg (show ¬ ((name.length : Int) = -1) by omega), hwrite, Option.bind_some,
          if_neg hempty]
        obtain ⟨p', hrun, ht, hc⟩ := ih (p := q.puts name) (hq.changed rfl fun _ _ _ => rfl)
          (by omega) (by omega)
        refine ⟨p', hrun, ht.trans htyped, ?_⟩
        rw [hc, List.flatten_cons, emit_append, Process.puts_console, hconsole]
    · refine ⟨q, ?_, htyped, ?_⟩
      · simp only [catLoop, hpast (by omega), Option.bind_eq_bind, Option.bind_some, if_true]
      · rw [listedNames_end (by omega), hconsole, List.flatten_nil, emit_nil]

theorem entryAt_opened (k : Kernel) (fd : Int) (ops : FileOps) (inode : Nat) :
    entryAt (setEntry fd (fun _ => ⟨some ops, inode, 0, 1⟩) k) fd = ⟨some ops, inode, 0, 1⟩ := by
  rw [entryAt_setEntry, if_pos rfl]

theorem dirAt_start (hown : p.kernel.pid = p.kernel.terminalProcessInfo p.kernel.currentTerminalId)
    (hout : Stdout p.kernel) (hfree : freeDescriptor p.kernel = some fd)
    (hm : SameImage sys.fs p.mem m₀) (inode : Nat) : DirAt sys m₀ fd 0
      { p with kernel := setEntry fd (fun _ => ⟨some .directory, inode, 0, 1⟩) p.kernel } := by
  have hentry := entryAt_opened p.kernel fd .directory inode
  have hrange := freeDescriptor_range hfree
  refine ⟨⟨?_, hm, ?_, ?_, ?_⟩, hrange, stdout_setEntry hrange.1 _ hout⟩
  · rw [getPcbAddr_setEntry, getPcbAddr, ← hown]
    rfl
  · rw [hentry]
  · rw [hentry]
    exact Nat.one_ne_zero
  · rw [hentry]

structure CatDoes (sys : System) (p p' : Process) (dentry : Dentry) : Prop where
  file : dentry.fileType = 2 →
    p'.console = emit (fileBytes p.mem sys.fs dentry.inodeNum) p.console
  directory : dentry.fileType = 1 →
    p'.console = emit (listedNames p.mem sys.fs 0).flatten p.console
  clock : dentry.fileType = 0 → p'.console = p.console

/-- The entry can be read to its end: its type is known, the blocks of a file are in the image, and
of a directory every name that is read ends. -/
structure Readable (sys : System) (m : Mem) (dentry : Dentry) : Prop where
  known : dentry.fileType ≤ 2
  file : dentry.fileType = 2 → RegularFile m sys.fs dentry.inodeNum
  directory : dentry.fileType = 1 →
    sys.fs.fileSize ≤ 63 ∧ ∀ i, 1 + i < sys.fs.fileSize → NameEnds m sys.fs i

variable {args : List UInt8} {fuel : Nat} {dentry : Dentry}

theorem cat_opens (fuel : Nat) (hargs : Arguments p.kernel args) (hlen : args.length < 1024)
    (hbuf : UserBuffer sys.fs buf 1024) :
    ∃ m', ChangedIn buf 1024 p.mem m' ∧ cat sys fuel buf p =
      match ece391Open sys args { p with mem := m' } with
      | (fd, p) => if fd = -1 then (fdputsLiteral 1 (ascii "file not found\n") p).map fun p => (2, p)
        else catLoop sys fd buf fuel p := by
  obtain ⟨m', hgetargs, hchanged, htext⟩ := getargs_text hargs hbuf.notNull hlen
  refine ⟨m', hchanged, ?_⟩
  have hargs' : textAt m' buf = args := htext.textAt (by
    simp only [addressSpace]
    omega)
  rw [cat, hgetargs]
  simp only [ne_eq, not_true_eq_false, if_false, hargs']

theorem cat_run (hfits : imageEnd sys.fs ≤ 4294967296)
    (hown : p.kernel.pid = p.kernel.terminalProcessInfo p.kernel.currentTerminalId)
    (hout : Stdout p.kernel) (hbuf : UserBuffer sys.fs buf 1024) (hargs : Arguments p.kernel args)
    (hlen : args.length < 1024) (hfree : freeDescriptor p.kernel = some fd)
    (hname : readDentryByName sys.mem sys.fs (byteAt args) = some dentry)
    (hread : Readable sys p.mem dentry)
    (hfuel : (fileBytes p.mem sys.fs dentry.inodeNum).length + sys.fs.fileSize + 1 ≤ fuel) :
    ∃ p', cat sys fuel buf p = some (0, p') ∧ CatDoes sys p p' dentry := by
  have hm : Mounted sys.fs := mounted_fsInit sys.mem sys.bootblk hfits
  obtain ⟨m', hchanged, hcat⟩ := cat_opens fuel hargs hlen hbuf
  have hsame : SameImage sys.fs m' p.mem := hbuf.sameImage hchanged
  have hrange := freeDescriptor_range hfree
  have hne : fd ≠ -1 := by omega
  have hopen : ∀ {ops inode}, openAs dentry = some (ops, inode) →
      cat sys fuel buf p = catLoop sys fd buf fuel { p with
        kernel := setEntry fd (fun _ => ⟨some ops, inode, 0, 1⟩) p.kernel, mem := m' } := by
    intro ops inode hops
    rw [hcat, open_entry (p := { p with mem := m' }) hfree hname hops]
    simp only [if_neg hne]
  have hknown := hread.known
  obtain h2 | h1 | h0 : dentry.fileType = 2 ∨ dentry.fileType = 1 ∨ dentry.fileType = 0 := by omega
  · have hopened := openedFile_setEntry hfree (hread.file h2)
    have hof : fileOf sys (setEntry fd (fun _ => ⟨some .file, dentry.inodeNum, 0, 1⟩) p.kernel)
        p.mem fd = fileBytes p.mem sys.fs dentry.inodeNum := by
      rw [fileOf, entryAt_opened]
    have hstart := fileAt_start (p := { p with
      kernel := setEntry fd (fun _ => ⟨some .file, dentry.inodeNum, 0, 1⟩) p.kernel, mem := m' })
      hopened hown rfl hsame
    obtain ⟨p', hrun, -, hc⟩ := catLoop_file hm hbuf (stdout_setEntry hrange.1 _ hout) hstart
      (by rw [hof]; omega : _ < fuel)
    refine ⟨p', (hopen (openAs_file h2)).trans hrun, fun _ => ?_, fun h => ?_, fun h => ?_⟩
    · rw [hc, hof, List.drop_zero]
    · omega
    · omega
  · obtain ⟨hn, hends⟩ := hread.directory h1
    have hops : openAs dentry = some (.directory, 0) := by simp only [openAs, h1]
    obtain ⟨p', hrun, -, hc⟩ := catLoop_directory hn hbuf hends
      (dirAt_start (p := { p with mem := m' }) hown hout hfree hsame 0) (Nat.succ_pos _)
      (by omega : _ ≤ fuel)
    refine ⟨p', (hopen hops).trans hrun, fun h => ?_, fun _ => hc, fun h => ?_⟩
    · omega
    · omega
  · have hops : openAs dentry = some (.rtc, 0) := by simp only [openAs, h0]
    have hentry := entryAt_opened p.kernel fd .rtc 0
    have hdispatch := readDispatch_file hrange hbuf.notNull
      (by rw [hentry]; exact Nat.one_ne_zero) (by rw [hentry])
    refine ⟨{ p with
      kernel := setEntry fd (fun _ => ⟨some .rtc, 0, 0, 1⟩) p.kernel, mem := m' },
      (hopen hops).trans ?_, fun h => ?_, fun h => ?_, fun _ => rfl⟩
    · cases fuel with
      | zero => omega
      | succ fuel =>
        simp only [catLoop, ece391Read, hdispatch, Option.bind_eq_bind, Option.bind_some, if_true]
    · omega
    · omega

/-- `cat` prints what its argument names: the bytes of a file, the names of a directory, nothing
of the clock. A file is then on the screen as on a terminal that scrolls, and the other terminals
are as they were. -/
theorem cat_prints (hfits : imageEnd sys.fs ≤ 4294967296)
    (hown : p.kernel.pid = p.kernel.terminalProcessInfo p.kernel.currentTerminalId)
    (hout : Stdout p.kernel) (hbuf : UserBuffer sys.fs buf 1024) (hargs : Arguments p.kernel args)
    (hlen : args.length < 1024) (hfree : freeDescriptor p.kernel = some fd)
    (hname : readDentryByName sys.mem sys.fs (byteAt args) = some dentry)
    (hread : Readable sys p.mem dentry)
    (hcursor : CursorInside p.console.screen p.console.currentTerminalId)
    (hfuel : (fileBytes p.mem sys.fs dentry.inodeNum).length + sys.fs.fileSize + 1 ≤ fuel) :
    ∃ p', cat sys fuel buf p = some (0, p') ∧ CatDoes sys p p' dentry ∧
      (dentry.fileType = 2 → Shows p.console.currentTerminalId p'.console.screen
        ((fileBytes p.mem sys.fs dentry.inodeNum).foldl (write 80 25 isNewLine)
          (console p.console.currentTerminalId p.console.screen))) ∧
      ∀ u, u ≠ p.console.currentTerminalId → SamePage u p.console.screen p'.console.screen := by
  obtain ⟨p', hrun, hdoes⟩ := cat_run hfits hown hout hbuf hargs hlen hfree hname hread hfuel
  have hshows := fun l => shows_writes l (shows_console hcursor) (fits_console hcursor)
  simp only [← emit_eq] at hshows
  have hknown := hread.known
  refine ⟨p', hrun, hdoes, fun h2 => ?_, ?_⟩
  · rw [hdoes.file h2]
    exact (hshows _).1
  · obtain h2 | h1 | h0 : dentry.fileType = 2 ∨ dentry.fileType = 1 ∨ dentry.fileType = 0 := by
      omega
    · rw [hdoes.file h2]
      exact (hshows _).2
    · rw [hdoes.directory h1]
      exact (hshows _).2
    · rw [hdoes.clock h0]
      exact fun u _ => samePage_refl u _

/-- `ls` prints the names of the directory, each on a line of its own, where each of them ends. The
last entry is never read, and an entry without a name ends the listing. -/
theorem ls_prints (hown : p.kernel.pid = p.kernel.terminalProcessInfo p.kernel.currentTerminalId)
    (hout : Stdout p.kernel) (hbuf : UserBuffer sys.fs buf sbufsize)
    (hfree : freeDescriptor p.kernel = some fd)
    (hname : readDentryByName sys.mem sys.fs (byteAt (ascii ".")) = some dentry)
    (htype : dentry.fileType = 1) (hn : sys.fs.fileSize ≤ 63)
    (hends : ∀ i, 1 + i < sys.fs.fileSize → NameEnds p.mem sys.fs i)
    (hfuel : sys.fs.fileSize + 1 ≤ fuel) :
    ∃ p', ls sys fuel buf p = some (0, p') ∧ p'.console =
      emit ((listedNames p.mem sys.fs 0).flatMap fun n => n ++ ascii "\n") p.console := by
  have hops : openAs dentry = some (.directory, 0) := by simp only [openAs, htype]
  have hrange := freeDescriptor_range hfree
  have hne : fd ≠ -1 := by omega
  obtain ⟨p', hrun, -, hc⟩ := lsLoop_eq hn hbuf hends
    (dirAt_start hown hout hfree (fun _ _ _ => rfl) 0) (Nat.succ_pos _) (by omega : _ ≤ fuel)
  refine ⟨p', ?_, hc⟩
  rw [ls, open_entry hfree hname hops]
  simp only [if_neg hne]
  exact hrun

theorem noteArguments : Arguments noteKernel (ascii "note") := ⟨rfl, rfl, by decide⟩

theorem cat_prints_note :
    ∃ p', cat noteSystem 9 0x8200000 noteProcess = some (0, p') ∧
      CatDoes noteSystem noteProcess p' ⟨2, 0⟩ ∧
      ((⟨2, 0⟩ : Dentry).fileType = 2 → Shows noteProcess.console.currentTerminalId p'.console.screen
        ((fileBytes noteMem noteSystem.fs 0).foldl (write 80 25 isNewLine)
          (console noteProcess.console.currentTerminalId noteProcess.console.screen))) ∧
      ∀ u, u ≠ noteProcess.console.currentTerminalId →
        SamePage u noteProcess.console.screen p'.console.screen :=
  cat_prints (by decide) (by decide) noteStdout (noteBuffer (by decide)) noteArguments (by decide)
    (by decide : freeDescriptor noteKernel = some 2) (by decide)
    ⟨by decide, fun _ => noteFile, fun h => absurd h (by decide)⟩
    ⟨by decide, by decide, by decide, by decide⟩ (by decide +kernel)

theorem ls_prints_note :
    ∃ p', ls noteSystem 4 0x8200000 noteProcess = some (0, p') ∧ p'.console =
      emit ((listedNames noteMem noteSystem.fs 0).flatMap fun n => n ++ ascii "\n")
        noteProcess.console := by
  have hends : ∀ i, 1 + i < noteSystem.fs.fileSize → NameEnds noteProcess.mem noteSystem.fs i := by
    intro i hi
    have hn : noteSystem.fs.fileSize = 3 := by decide
    obtain rfl | rfl : i = 0 ∨ i = 1 := by omega
    · decide
    · decide
  have hname : readDentryByName noteSystem.mem noteSystem.fs (byteAt (ascii ".")) =
      some ⟨1, 0⟩ := by decide
  exact ls_prints (by decide) noteStdout (noteBuffer (by decide))
    (by decide : freeDescriptor noteKernel = some 2) hname (by decide) (by decide) hends (by decide)

end RedstoneOS.FileTools
