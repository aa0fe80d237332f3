import RedstoneOS.Library.Processor
import RedstoneOS.SequentialReads
import RedstoneOS.Paging

namespace RedstoneOS.FileArrays

open KernelState Lib Library.ByteMemory Filesystem ReadData Execute Syscalls ExecuteChecks
open SequentialReads Paging
open Library.SequentialReader Library.Processor Library.Runs

/-- Where the linker has put the four jump tables. -/
structure JumpTables where
  addr : FileOps → Nat
  injective : Function.Injective addr

def JumpTables.find (t : JumpTables) (fOp : Nat) : Option FileOps :=
  [.rtc, .terminal, .directory, .file].find? fun ops => decide (t.addr ops = fOp)

structure FileT where
  fOp : Nat
  inode : Nat
  filePosition : Nat
  flags : Nat
  deriving DecidableEq

/-- `&file_array[fd]`. The array comes first in a PCB, and an entry has 16 bytes. -/
def entryAddr (slot fd : Int) : Nat := u32 (pcbAddr slot + 16 * fd)

def entryIn (m : Mem) (slot fd : Int) : FileT where
  fOp := load32 m (entryAddr slot fd)
  inode := load32 m (entryAddr slot fd + 4)
  filePosition := load32 m (entryAddr slot fd + 8)
  flags := load32 m (entryAddr slot fd + 12)

def storePosition (slot fd : Int) (pos : Nat) (m : Mem) : Mem :=
  storeDword m (entryAddr slot fd + 8) (UInt32.ofNat pos)

/-- `file_read` with the PCBs in the memory that `read_data` copies to: for `+=` the position is
loaded after the copy. -/
def fileReadIn (fs : FsInfo) (pid fd : Int) (buf : Nat) (nbytes : Int) (m : Mem) : Int × Mem :=
  if fd ≤ 1 ∨ maxFdNumber ≤ fd then (-1, m)
  else
    let entry := entryIn m pid fd
    let (fileLenRead, m) := readData m fs entry.inode entry.filePosition buf (u32 nbytes)
    if fileLenRead ≠ -1 then
      (fileLenRead, storePosition pid fd (u32 ((entryIn m pid fd).filePosition + fileLenRead)) m)
    else (-1, m)

def dirReadIn (fs : FsInfo) (pid fd : Int) (buf : Nat) (nbytes : Int) (m : Mem) : Int × Mem :=
  let offset := (entryIn m pid fd).filePosition
  let m := storePosition pid fd (wrap (offset + 1)) m
  if fs.fileSize ≤ wrap (1 + offset) then (0, m)
  else if fd ≤ 1 ∨ maxFdNumber ≤ fd then (-1, m)
  else
    let dentryName := dirEntryAddr fs offset
    let m := strncpy m buf dentryName (u32 nbytes)
    (s32 (strlen m dentryName), m)

/-- `read` where it ends in the file system. Of the kernel it uses the globals, which are apart
from the PCBs. -/
def readCallIn (t : JumpTables) (fs : FsInfo) (k : Kernel) (fd : Int) (buf : Nat) (nbytes : Int)
    (m : Mem) : Option (Int × Mem) :=
  let slot := k.terminalProcessInfo k.currentTerminalId
  if maxFdNum < fd ∨ fd < 0 ∨ fd = 1 ∨ buf = 0 then some (-1, m)
  else if (entryIn m slot fd).flags = 0 then some (-1, m)
  else match t.find (entryIn m slot fd).fOp with
    | some .file => some (fileReadIn fs k.pid fd buf nbytes m)
    | some .directory => some (dirReadIn fs k.pid fd buf nbytes m)
    | some .terminal => none
    | some .rtc => none
    | none => none

def deliveriesIn (t : JumpTables) (fs : FsInfo) (k : Kernel) : List ReadArgs → Mem → List Delivery
  | [], _ => []
  | c :: cs, m =>
    match readCallIn t fs k c.fd c.buf c.nbytes m with
    | none => []
    | some (value, m) =>
      ⟨c.fd, value, readBytes m c.buf value.toNat⟩ :: deliveriesIn t fs k cs m

def readStepIn (t : JumpTables) (fs : FsInfo) (k : Kernel) (m : Mem) (c : ReadArgs) : Mem :=
  match readCallIn t fs k c.fd c.buf c.nbytes m with
  | none => m
  | some (_, m) => m

def fileIn (fs : FsInfo) (k : Kernel) (m : Mem) (fd : Int) : List UInt8 :=
  fileBytes m fs (entryIn m k.pid fd).inode

structure OpenedIn (t : JumpTables) (fs : FsInfo) (k : Kernel) (m : Mem) (fd : Int) : Prop where
  valid : 2 ≤ fd ∧ fd ≤ maxFdNum
  used : (entryIn m k.pid fd).flags ≠ 0
  ops : (entryIn m k.pid fd).fOp = t.addr .file
  position : (entryIn m k.pid fd).filePosition = 0
  file : RegularFile m fs (entryIn m k.pid fd).inode

/-- The process in a slot that runs, with its file array off the image. -/
structure Placed (fs : FsInfo) (k : Kernel) : Prop where
  slot : IsSlot k.pid
  own : k.pid = k.terminalProcessInfo k.currentTerminalId
  apart : Outside fs (entryAddr k.pid 0) 128

/-- What a read promises: the next bytes of its own file, and nothing of the other descriptors. -/
structure Delivered (file : List UInt8) (k : Kernel) (c : ReadArgs) (pos : Nat) (m : Mem)
    (r : Option (Int × Mem)) : Prop where
  value : r.map Prod.fst = some ((min c.nbytes.toNat (file.length - pos) : Nat) : Int)
  bytes : ∀ v m', r = some (v, m') → readBytes m' c.buf v.toNat = (file.drop pos).take c.nbytes.toNat
  others : ∀ v m', r = some (v, m') → ∀ fd, 0 ≤ fd ∧ fd ≤ maxFdNum → fd ≠ c.fd →
    entryIn m' k.pid fd = entryIn m k.pid fd

/-- What a sequence of reads promises, with the position of a descriptor the sum of what the reads
on it have returned. -/
structure Delivers (t : JumpTables) (fs : FsInfo) (k : Kernel) (m : Mem) (cs : List ReadArgs) :
    Prop where
  returns : (deliveriesIn t fs k cs m).length = cs.length
  reads : ∀ pre c post, cs = pre ++ c :: post → ∃ pos : Nat,
    (pos : Int) = returnedOn c.fd (deliveriesIn t fs k pre m) ∧
      Delivered (fileIn fs k m c.fd) k c pos (run (readStepIn t fs k) m pre)
        (readCallIn t fs k c.fd c.buf c.nbytes (run (readStepIn t fs k) m pre))
  prefixes : ∀ fd, 0 ≤ fd ∧ fd ≤ maxFdNum →
    bytesOn fd (deliveriesIn t fs k cs m) <+: fileIn fs k m fd

variable {t : JumpTables} {sys : System} {k k₀ : Kernel} {m m₀ b : Mem} {slot fd : Int} {pos : Nat}

theorem JumpTables.find_addr (t : JumpTables) (ops : FileOps) : t.find (t.addr ops) = some ops := by
  have hiff : ∀ o o', t.addr o = t.addr o' ↔ o = o' := fun o o' => t.injective.eq_iff
  cases ops <;> simp [JumpTables.find, hiff]

theorem load32_eq_dwordAt (m : Mem) (a : Nat) : load32 m a = (dwordAt m a).toNat := by
  have h0 := (m a).toNat_lt
  have h1 := (m (a + 1)).toNat_lt
  have h2 := (m (a + 2)).toNat_lt
  have h3 := (m (a + 3)).toNat_lt
  rw [load32, dwordAt, UInt32.toNat_ofNat']
  omega

theorem entryAddr_eq (hp : IsSlot slot) (hfd : 0 ≤ fd ∧ fd ≤ maxFdNum) :
    entryAddr slot fd = entryAddr slot 0 + 16 * fd.toNat ∧ fd.toNat < 8 ∧
      entryAddr slot 0 + 128 ≤ 0x800000 := by
  simp only [IsSlot, maxFdNum, entryAddr, u32, pcbAddr, baMb, baKb] at *
  omega

theorem inArray_of_valid (h : 2 ≤ fd ∧ fd ≤ maxFdNum) : 0 ≤ fd ∧ fd ≤ maxFdNum :=
  ⟨by omega, h.2⟩

theorem entryIn_congr {m' : Mem} (h : ∀ a, entryAddr slot fd ≤ a → a < entryAddr slot fd + 16 →
    m a = m' a) : entryIn m slot fd = entryIn m' slot fd := by
  have hload : ∀ d, d + 4 ≤ 16 →
      load32 m (entryAddr slot fd + d) = load32 m' (entryAddr slot fd + d) :=
    fun d hd => load32_congr h (by omega) (by omega)
  have h0 := hload 0 (by decide)
  rw [Nat.add_zero] at h0
  simp only [entryIn, h0, hload 4 (by decide), hload 8 (by decide), hload 12 (by decide)]

theorem storePosition_outside {a : Nat} (m : Mem)
    (ha : a < entryAddr slot fd + 8 ∨ entryAddr slot fd + 12 ≤ a) :
    storePosition slot fd pos m a = m a := changedIn_storeDword _ _ _ a (by omega)

theorem entryIn_storePosition_self (m : Mem) (hpos : pos < 4294967296) :
    entryIn (storePosition slot fd pos m) slot fd =
      { entryIn m slot fd with filePosition := pos } := by
  have hload : ∀ d, d + 4 ≤ 8 ∨ 12 ≤ d → load32 (storePosition slot fd pos m)
      (entryAddr slot fd + d) = load32 m (entryAddr slot fd + d) := by
    intro d hd
    have hkeep : AgreeOn (entryAddr slot fd + d) (entryAddr slot fd + d + 4)
        (storePosition slot fd pos m) m :=
      fun a hlo hhi => storePosition_outside m (by omega)
    exact load32_congr hkeep le_rfl le_rfl
  have h0 := hload 0 (by decide)
  have h8 : load32 (storePosition slot fd pos m) (entryAddr slot fd + 8) = pos := by
    rw [load32_eq_dwordAt, storePosition, dwordAt_storeDword, UInt32.toNat_ofNat']
    exact Nat.mod_eq_of_lt hpos
  rw [Nat.add_zero] at h0
  simp only [entryIn, h0, hload 4 (by decide), h8, hload 12 (by decide)]

theorem entryIn_storePosition_other (hp : IsSlot slot) (hfd : 0 ≤ fd ∧ fd ≤ maxFdNum) {fd' : Int}
    (hfd' : 0 ≤ fd' ∧ fd' ≤ maxFdNum) (hne : fd' ≠ fd) (m : Mem) :
    entryIn (storePosition slot fd pos m) slot fd' = entryIn m slot fd' := by
  have ha := (entryAddr_eq hp hfd).1
  have ha' := (entryAddr_eq hp hfd').1
  exact entryIn_congr fun a hlo hhi => storePosition_outside m (by omega)

def SameArray (slot : Int) (m m' : Mem) : Prop :=
  AgreeOn (entryAddr slot 0) (entryAddr slot 0 + 128) m m'

theorem SameArray.entryIn {m' : Mem} (h : SameArray slot m m') (hp : IsSlot slot)
    (hfd : 0 ≤ fd ∧ fd ≤ maxFdNum) : entryIn m slot fd = entryIn m' slot fd := by
  obtain ⟨ha, h8, -⟩ := entryAddr_eq hp hfd
  exact entryIn_congr fun a hlo hhi => h a (by omega) (by omega)

theorem sameArray_fill (hp : IsSlot slot) {buf n : Nat} (h : InWindow buf n) (f : Nat → UInt8)
    (m : Mem) : SameArray slot (fill m buf f n) m := by
  have hfirst : (0 : Int) ≤ 0 ∧ (0 : Int) ≤ maxFdNum := by decide
  have hend := (entryAddr_eq hp hfirst).2.2
  have hlo := h.1
  exact agreeOn_fill m buf f (Or.inr (by omega))

def JumpTables.decode (t : JumpTables) (e : FileT) : FileEntry :=
  ⟨t.find e.fOp, e.inode, e.filePosition, e.flags⟩

def arrayIn (t : JumpTables) (m : Mem) (slot : Int) (p : Pcb) (fd : Int) : FileEntry :=
  if 0 ≤ fd ∧ fd ≤ maxFdNum then t.decode (entryIn m slot fd) else p.fileArray fd

/-- The kernel whose current PCB has the descriptors that the memory holds. -/
def withEntries (t : JumpTables) (m : Mem) (k : Kernel) : Kernel :=
  setPcb (pcbAddr k.pid) (fun p => { p with fileArray := arrayIn t m k.pid p }) k

theorem fileArray_withEntries (hfd : 0 ≤ fd ∧ fd ≤ maxFdNum) :
    ((withEntries t m k).pcbs (pcbAddr k.pid)).fileArray fd = t.decode (entryIn m k.pid fd) := by
  simp only [withEntries, setPcb, Function.update_self, arrayIn, if_pos hfd]

theorem entryAt_withEntries (hown : k.pid = k.terminalProcessInfo k.currentTerminalId)
    (hfd : 0 ≤ fd ∧ fd ≤ maxFdNum) :
    entryAt (withEntries t m k) fd = t.decode (entryIn m k.pid fd) := by
  rw [entryAt, show getPcbAddr (withEntries t m k) = pcbAddr k.pid by rw [hown]; rfl,
    fileArray_withEntries hfd]

theorem withEntries_storePosition (hp : IsSlot k.pid) (hfd : 0 ≤ fd ∧ fd ≤ maxFdNum)
    (hpos : pos < 4294967296) (h : SameArray k.pid m b) :
    withEntries t (storePosition k.pid fd pos m) k =
      setFilePosition (pcbAddr k.pid) fd pos (withEntries t b k) := by
  have harray : arrayIn t (storePosition k.pid fd pos m) k.pid (k.pcbs (pcbAddr k.pid)) =
      Function.update (arrayIn t b k.pid (k.pcbs (pcbAddr k.pid))) fd
        { arrayIn t b k.pid (k.pcbs (pcbAddr k.pid)) fd with filePosition := pos } := by
    funext fd'
    by_cases hne : fd' = fd
    · subst hne
      simp only [Function.update_self, arrayIn, if_pos hfd, entryIn_storePosition_self m hpos,
        h.entryIn hp hfd, JumpTables.decode]
    · rw [Function.update_of_ne hne]
      by_cases hin : 0 ≤ fd' ∧ fd' ≤ maxFdNum
      · simp only [arrayIn, if_pos hin, entryIn_storePosition_other hp hfd hin hne, h.entryIn hp hin]
      · simp only [arrayIn, if_neg hin]
  simp only [withEntries, setFilePosition, setPcb, setFile, Function.update_self,
    Function.update_idem, harray]

/-- A read that leaves the file array alone does what it does with the PCBs apart. -/
theorem readCallIn_simulates (hp : IsSlot k.pid)
    (hown : k.pid = k.terminalProcessInfo k.currentTerminalId) (hfd : 2 ≤ fd ∧ fd ≤ maxFdNum)
    (hops : (entryAt (withEntries t b k) fd).fOp = some .file)
    (hused : (entryAt (withEntries t b k) fd).flags ≠ 0) {buf : Nat} (hbuf : buf ≠ 0)
    {nbytes value : Int} {k' : Kernel} {m' : Mem}
    (h : readCall sys fd buf nbytes (withEntries t b k) b = some (value, k', m'))
    (hvalue : value ≠ -1) (hkeep : SameArray k.pid m' b) :
    ∃ pos, readCallIn t sys.fs k fd buf nbytes b = some (value, storePosition k.pid fd pos m') ∧
      withEntries t (storePosition k.pid fd pos m') k = k' := by
  have hrange := inArray_of_valid hfd
  have hvalid : ¬ (maxFdNum < fd ∨ fd < 0 ∨ fd = 1 ∨ buf = 0) := by omega
  rw [readCall, readDispatch_file hfd hbuf hused hops, Option.some.injEq] at h
  rw [entryAt_withEntries hown hrange] at hops hused
  have hpid : (withEntries t b k).pid = k.pid := rfl
  have hfind : t.find (entryIn b k.pid fd).fOp = some .file := hops
  have hflags : (entryIn b k.pid fd).flags ≠ 0 := hused
  simp only [fileRead, if_neg (not_standard hfd), hpid, fileArray_withEntries hrange,
    JumpTables.decode] at h
  simp only [readCallIn, if_neg hvalid, ← hown, if_neg hflags, hfind, fileReadIn,
    if_neg (not_standard hfd)]
  generalize hread : readData b sys.fs (entryIn b k.pid fd).inode (entryIn b k.pid fd).filePosition
    buf (u32 nbytes) = r at h ⊢
  obtain ⟨len, m₁⟩ := r
  by_cases hlen : len = -1
  · rw [if_neg (not_not.mpr hlen)] at h
    exact absurd (congrArg Prod.fst h).symm hvalue
  · simp only [ne_eq, hlen, not_false_eq_true, if_true, Prod.mk.injEq] at h ⊢
    obtain ⟨rfl, rfl, rfl⟩ := h
    refine ⟨_, rfl, ?_⟩
    rw [hkeep.entryIn hp hrange]
    exact withEntries_storePosition hp hrange (by simp only [u32]; omega) hkeep

theorem sameImage_storePosition (hp : IsSlot slot) (hfd : 0 ≤ fd ∧ fd ≤ maxFdNum)
    (hpcb : Outside sys.fs (entryAddr slot 0) 128) (m : Mem) :
    SameImage sys.fs (storePosition slot fd pos m) m := by
  obtain ⟨ha, h8, -⟩ := entryAddr_eq hp hfd
  simp only [Outside] at hpcb
  exact fun a hlo hhi => storePosition_outside m (by omega)

variable {opened : Int → Prop} {ps : Int → Nat} {c : ReadArgs} {cs : List ReadArgs}

/-- One read into the window, in any memory that earlier reads have left. -/
theorem readIn_step (hm : Mounted sys.fs) (hp : Placed sys.fs k)
    (h : Reading sys k₀ m₀ opened ps (withEntries t b k, b)) (ho : opened c.fd)
    (hf : OpenedFile sys k₀ m₀ c.fd) (hb : GoodBuffer sys.fs c) (hw : InWindow c.buf c.nbytes.toNat)
    {chunk : List UInt8} (hchunk : next (fileOf sys k₀ m₀) ps c.fd c.nbytes.toNat = chunk) :
    ∃ b', readCallIn t sys.fs k c.fd c.buf c.nbytes b = some ((chunk.length : Int), b') ∧
      Reading sys k₀ m₀ opened (advance (fileOf sys k₀ m₀) ps c.fd c.nbytes.toNat)
        (withEntries t b' k, b') ∧
      readBytes b' c.buf chunk.length = chunk ∧
      ∀ fd, 0 ≤ fd ∧ fd ≤ maxFdNum → fd ≠ c.fd → entryIn b' k.pid fd = entryIn b k.pid fd := by
  have hrange := inArray_of_valid hf.valid
  rw [next_fileBytes] at hchunk
  have hcount : min c.nbytes.toNat (dataLength m₀ sys.fs (entryAt k₀ c.fd).inode - ps c.fd) =
      chunk.length := by
    rw [← hchunk, List.length_map, List.length_range]
  have hread := read_step hm h ho hf hb hcount.symm
  have hnext := reading_step h hb hcount.symm
  have hpart : InWindow c.buf chunk.length := ⟨hw.1, by have hhi := hw.2; omega⟩
  have hentry : entryAt (withEntries t b k) c.fd =
      { entryAt k₀ c.fd with filePosition := ps c.fd } := h.entries c.fd ho
  have hkeep := sameArray_fill hp.slot hpart
    (fun j => fileByte m₀ sys.fs (entryAt k₀ c.fd).inode (ps c.fd + j)) b
  obtain ⟨pos, hcall, hk⟩ := readCallIn_simulates hp.slot hp.own hf.valid
    (by rw [hentry]; exact hf.ops) (by rw [hentry]; exact hf.used) hb.notNull hread (by omega) hkeep
  refine ⟨_, hcall, ?_, ?_, fun fd hfd hne => ?_⟩
  · rw [hk]
    exact ⟨hnext.own, agreeOn_trans (sameImage_storePosition hp.slot hrange hp.apart _) hnext.image,
      hnext.entries, hnext.inside⟩
  · obtain ⟨ha, h8, hend⟩ := entryAddr_eq hp.slot hrange
    have hlo := hw.1
    rw [readBytes_congr fun a hlo' hhi => storePosition_outside _ (by omega), readBytes_fill,
      ← hcount, hchunk]
  · rw [entryIn_storePosition_other hp.slot hrange hfd hne, hkeep.entryIn hp.slot hfd]

theorem readsIn_refine (hm : Mounted sys.fs) (hp : Placed sys.fs k)
    (h : Reading sys k₀ m₀ opened ps (withEntries t b k, b))
    (hcs : ∀ c ∈ cs, opened c.fd ∧ OpenedFile sys k₀ m₀ c.fd ∧ GoodBuffer sys.fs c)
    (hwindow : ∀ c ∈ cs, InWindow c.buf c.nbytes.toNat) :
    deliveriesIn t sys.fs k cs b = (serve (fileOf sys k₀ m₀) ps (cs.map request)).map deliver ∧
      Reading sys k₀ m₀ opened (after (fileOf sys k₀ m₀) ps (cs.map request))
        (withEntries t (run (readStepIn t sys.fs k) b cs) k, run (readStepIn t sys.fs k) b cs) := by
  induction cs generalizing ps b with
  | nil =>
    have hps : after (fileOf sys k₀ m₀) ps [] = ps := by
      funext fd
      simp [after, serve]
    exact ⟨rfl, by rwa [List.map_nil, hps]⟩
  | cons c cs ih =>
    obtain ⟨ho, hf, hb⟩ := hcs c (by simp)
    obtain ⟨b', hcall, hnext, hbytes, -⟩ :=
      readIn_step hm hp h ho hf hb (hwindow c (by simp)) rfl
    obtain ⟨hd, hr⟩ := ih hnext (fun c' hc' => hcs c' (by simp [hc']))
      fun c' hc' => hwindow c' (by simp [hc'])
    refine ⟨?_, ?_⟩
    · simp only [deliveriesIn, hcall, hd, List.map_cons, request, serve, deliver,
        Int.toNat_natCast, hbytes]
    · rw [run_cons, List.map_cons, request, after_cons]
      simp only [readStepIn, hcall]
      exact hr

theorem readingIn_start (hp : Placed sys.fs k)
    (hcs : ∀ c ∈ cs, OpenedFile sys (withEntries t m k) m c.fd) :
    Reading sys (withEntries t m k) m (fun fd => ∃ c ∈ cs, c.fd = fd) (fun _ => 0)
      (withEntries t m k, m) := by
  refine reading_start hp.own ?_
  rintro fd ⟨c, hc, rfl⟩
  exact hcs c hc

/-- Into the window the reads deliver what they deliver with the PCBs apart. -/
theorem deliveriesIn_eq (hm : Mounted sys.fs) (hp : Placed sys.fs k)
    (hcs : ∀ c ∈ cs, OpenedFile sys (withEntries t m k) m c.fd ∧ GoodBuffer sys.fs c)
    (hwindow : ∀ c ∈ cs, InWindow c.buf c.nbytes.toNat) :
    deliveriesIn t sys.fs k cs m = deliveries sys cs (withEntries t m k, m) := by
  have hstart := readingIn_start hp fun c hc => (hcs c hc).1
  have hall : ∀ c ∈ cs, (∃ c' ∈ cs, c'.fd = c.fd) ∧ OpenedFile sys (withEntries t m k) m c.fd ∧
      GoodBuffer sys.fs c := fun c hc => ⟨⟨c, hc, rfl⟩, hcs c hc⟩
  rw [(readsIn_refine hm hp hstart hall hwindow).1, (reads_refine hm hstart hall).1]

theorem OpenedIn.openedFile (hown : k.pid = k.terminalProcessInfo k.currentTerminalId)
    (h : OpenedIn t sys.fs k m fd) : OpenedFile sys (withEntries t m k) m fd := by
  have hentry := entryAt_withEntries (t := t) (m := m) hown (inArray_of_valid h.valid)
  refine ⟨h.valid, ?_, ?_, ?_, ?_⟩
  · rw [hentry]
    exact h.used
  · rw [hentry, JumpTables.decode, h.ops, t.find_addr]
  · rw [hentry]
    exact h.position
  · rw [hentry]
    exact h.file

/-- Sequential reads deliver the file when every one of them is into the window of the program,
which `read` does not check: elsewhere a read can overwrite the descriptors. -/
theorem reads_deliver (hfits : imageEnd sys.fs ≤ 4294967296) (hp : Placed sys.fs k)
    (hcs : ∀ c ∈ cs, OpenedIn t sys.fs k m c.fd ∧ GoodBuffer sys.fs c)
    (hwindow : ∀ c ∈ cs, InWindow c.buf c.nbytes.toNat) : Delivers t sys.fs k m cs := by
  have hm : Mounted sys.fs := mounted_fsInit sys.mem sys.bootblk hfits
  have hstart : Reading sys (withEntries t m k) m (fun fd => ∃ c ∈ cs, c.fd = fd) (fun _ => 0)
      (withEntries t m k, m) := readingIn_start hp fun c hc => (hcs c hc).1.openedFile hp.own
  have hfile : ∀ fd, 0 ≤ fd ∧ fd ≤ maxFdNum →
      fileOf sys (withEntries t m k) m fd = fileIn sys.fs k m fd := by
    intro fd hfd
    rw [fileOf, entryAt_withEntries hp.own hfd]
    rfl
  have hall : ∀ ds : List ReadArgs, (∀ c ∈ ds, c ∈ cs) → ∀ c ∈ ds, (∃ c' ∈ cs, c'.fd = c.fd) ∧
      OpenedFile sys (withEntries t m k) m c.fd ∧ GoodBuffer sys.fs c :=
    fun ds hds c hc =>
      ⟨⟨c, hds c hc, rfl⟩, (hcs c (hds c hc)).1.openedFile hp.own, (hcs c (hds c hc)).2⟩
  obtain ⟨hd, -⟩ := readsIn_refine hm hp hstart (hall cs fun c hc => hc) hwindow
  refine ⟨?_, ?_, fun fd hfd => ?_⟩
  · rw [hd, List.length_map, serve_length, List.length_map]
  · rintro pre c post rfl
    obtain ⟨hpre, hr⟩ := readsIn_refine hm hp hstart
      (hall pre fun c hc => by simp [hc]) fun c hc => hwindow c (by simp [hc])
    obtain ⟨ho, hf, hb⟩ := hall (pre ++ c :: post) (fun c hc => hc) c (by simp)
    obtain ⟨b', hcall, -, hbytes, hothers⟩ :=
      readIn_step hm hp hr ho hf hb (hwindow c (by simp)) rfl
    have hrange := inArray_of_valid hf.valid
    refine ⟨(collected c.fd (serve (fileOf sys (withEntries t m k) m) (fun _ => 0)
      (pre.map request))).length, ?_, ?_⟩
    · rw [hpre, returnedOn_deliver]
    · rw [next, after, Nat.zero_add, hfile c.fd hrange] at hcall hbytes
      refine ⟨?_, ?_, ?_⟩
      · rw [hcall, Option.map_some, List.length_take, List.length_drop]
      · intro v m' hv
        obtain ⟨rfl, rfl⟩ := Prod.mk.inj (Option.some.inj (hcall.symm.trans hv))
        rwa [Int.toNat_natCast]
      · intro v m' hv
        obtain ⟨rfl, rfl⟩ := Prod.mk.inj (Option.some.inj (hcall.symm.trans hv))
        exact hothers
  · rw [hd, bytesOn_deliver, ← hfile fd hfd]
    simpa using collected_prefix (fileOf sys (withEntries t m k) m) (fun _ => 0) (cs.map request) fd

def tinyTables : JumpTables where
  addr
    | .rtc => 0x404000
    | .terminal => 0x404010
    | .directory => 0x404020
    | .file => 0x404030
  injective := by
    intro o o' h
    cases o <;> cases o' <;> simp_all

def tinyRam : Mem :=
  place tinyMem 0x7FE020 (dword 0x404030 ++ dword 0 ++ dword 0 ++ dword 1)

theorem tinyRam_opened : OpenedIn tinyTables tinySystem.fs tinyKernel tinyRam 2 := by
  refine ⟨by decide, by decide, by decide, by decide, by decide, by decide, fun i hi => ?_⟩
  have hl : dataLength tinyRam tinySystem.fs (entryIn tinyRam tinyKernel.pid 2).inode / blockSize =
      0 := by decide
  rw [hl, Nat.le_zero] at hi
  subst hi
  decide

theorem reads_deliver_tiny : Delivers tinyTables tinySystem.fs tinyKernel tinyRam
    [⟨2, 0x8000000, 3⟩, ⟨2, 0x8000003, 100⟩, ⟨2, 0x83fffff, 1⟩] := by
  refine reads_deliver (by decide) ⟨by decide, rfl, Or.inr (by decide)⟩ ?_ (by
    simp only [List.forall_mem_cons, InWindow]
    decide)
  intro c hc
  simp only [List.mem_cons, List.not_mem_nil, or_false] at hc
  obtain rfl | rfl | rfl := hc
  · exact ⟨tinyRam_opened, by decide, by decide, by decide, by decide, Or.inr (by decide)⟩
  · exact ⟨tinyRam_opened, by decide, by decide, by decide, by decide, Or.inr (by decide)⟩
  · exact ⟨tinyRam_opened, by decide, by decide, by decide, by decide, Or.inr (by decide)⟩

def overwritingReads : List ReadArgs := [⟨2, 0x7FE020, 16⟩, ⟨2, 0x8000000, 10⟩]

/-- It leaves the descriptor with `flags` 0, so that the second one returns -1. -/
theorem descriptor_overwritten :
    imageEnd tinySystem.fs ≤ 4294967296 ∧ Placed tinySystem.fs tinyKernel ∧
    (∀ c ∈ overwritingReads, OpenedIn tinyTables tinySystem.fs tinyKernel tinyRam c.fd ∧
      GoodBuffer tinySystem.fs c) ∧
    ¬ Delivers tinyTables tinySystem.fs tinyKernel tinyRam overwritingReads := by
  refine ⟨by decide, ⟨by decide, rfl, Or.inr (by decide)⟩, fun c hc => ?_, fun h => ?_⟩
  · simp only [overwritingReads, List.mem_cons, List.not_mem_nil, or_false] at hc
    obtain rfl | rfl := hc
    · exact ⟨tinyRam_opened, by decide, by decide, by decide, by decide, Or.inr (by decide)⟩
    · exact ⟨tinyRam_opened, by decide, by decide, by decide, by decide, Or.inr (by decide)⟩
  · obtain ⟨pos, -, hread⟩ := h.reads [⟨2, 0x7FE020, 16⟩] ⟨2, 0x8000000, 10⟩ [] rfl
    have hvalue : (readCallIn tinyTables tinySystem.fs tinyKernel 2 0x8000000 10
        (run (readStepIn tinyTables tinySystem.fs tinyKernel) tinyRam
          [⟨2, 0x7FE020, 16⟩])).map Prod.fst = some (-1) := by decide +kernel
    have hcount := Option.some.inj (hvalue.symm.trans hread.value)
    omega

end RedstoneOS.FileArrays
