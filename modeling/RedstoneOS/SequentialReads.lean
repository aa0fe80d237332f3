import RedstoneOS.Library.SequentialReader
import RedstoneOS.Library.Runs
import RedstoneOS.ExecuteChecks

namespace RedstoneOS.SequentialReads

open KernelState Lib Library.ByteMemory Filesystem ReadData Execute Syscalls ExecuteChecks
open Library.SequentialReader Library.Runs

variable {sys : System} {k k₀ : Kernel} {m m₀ : Mem} {fs : FsInfo} {inode : Nat} {fd : Int}

/-- A file whose size fits its inode and whose blocks are data blocks of the image. -/
structure RegularFile (m : Mem) (fs : FsInfo) (inode : Nat) : Prop where
  stored : inode < fs.inodeNumLoc
  short : dataLength m fs inode < 1023 * blockSize
  blocks : ∀ i, i ≤ dataLength m fs inode / blockSize → dataIndex m fs inode i < fs.dataBlockLoc

def fileBytes (m : Mem) (fs : FsInfo) (inode : Nat) : List UInt8 :=
  (List.range (dataLength m fs inode)).map (fileByte m fs inode)

theorem RegularFile.goodBlock (h : RegularFile m fs inode) {i : Nat}
    (hi : i ≤ dataLength m fs inode / blockSize) : GoodBlock m fs inode i := by
  refine ⟨?_, h.blocks i hi⟩
  have hs := h.short
  have hb := (Nat.le_div_iff_mul_le (show 0 < blockSize by decide)).mp hi
  have hlt : i * blockSize < 1023 * blockSize := by omega
  exact Nat.lt_of_mul_lt_mul_right hlt

structure ReadArgs where
  fd : Int
  buf : Nat
  nbytes : Int

/-- A descriptor of a regular file as `open` leaves it. -/
structure OpenedFile (sys : System) (k : Kernel) (m : Mem) (fd : Int) : Prop where
  valid : 2 ≤ fd ∧ fd ≤ maxFdNum
  used : (entryAt k fd).flags ≠ 0
  ops : (entryAt k fd).fOp = some .file
  position : (entryAt k fd).filePosition = 0
  file : RegularFile m sys.fs (entryAt k fd).inode

/-- A buffer in the address space that does not overlap the image. It may lie over kernel data, which
is not in `Mem` here; what a read can do to the descriptors there is in `FileArrays`. -/
structure GoodBuffer (fs : FsInfo) (c : ReadArgs) : Prop where
  nonneg : 0 ≤ c.nbytes
  small : c.nbytes < 2147483648
  notNull : c.buf ≠ 0
  fits : c.buf + c.nbytes.toNat ≤ 4294967296
  outside : Outside fs c.buf c.nbytes.toNat

theorem getPcbAddr_setEntry (fd : Int) (f : FileEntry → FileEntry) (k : Kernel) :
    getPcbAddr (setEntry fd f k) = getPcbAddr k := rfl

theorem entryAt_setEntry (fd fd' : Int) (f : FileEntry → FileEntry) (k : Kernel) :
    entryAt (setEntry fd f k) fd' = if fd' = fd then f (entryAt k fd) else entryAt k fd' := by
  have hpcb : (setEntry fd f k).pcbs (getPcbAddr k) = setFile fd f (k.pcbs (getPcbAddr k)) :=
    Function.update_self _ _ _
  simp only [entryAt, getPcbAddr_setEntry, hpcb, setFile]
  by_cases hfd : fd' = fd
  · rw [hfd, Function.update_self, if_pos rfl]
  · rw [Function.update_of_ne hfd, if_neg hfd]

theorem openCall_opens {filename : Option (List UInt8)} (h : (openCall sys filename k).1 = fd)
    (hfd : fd ≠ -1) : (2 ≤ fd ∧ fd ≤ maxFdNum) ∧
      ∃ ops inode, (openCall sys filename k).2 = setEntry fd (fun _ => ⟨some ops, inode, 0, 1⟩) k := by
  obtain hfail | ⟨fd', ops, inode, hlo, hhi, hopen⟩ := openCall_cases sys filename k
  · rw [hfail] at h
    exact absurd h.symm hfd
  · rw [hopen] at h ⊢
    subst h
    exact ⟨⟨hlo, hhi⟩, ops, inode, rfl⟩

theorem entryAt_openCall {filename : Option (List UInt8)} (h : (openCall sys filename k).1 = fd)
    (hfd : fd ≠ -1) : (entryAt (openCall sys filename k).2 fd).flags ≠ 0 ∧
      (entryAt (openCall sys filename k).2 fd).filePosition = 0 := by
  obtain ⟨-, ops, inode, hopen⟩ := openCall_opens h hfd
  rw [hopen, entryAt_setEntry, if_pos rfl]
  exact ⟨Nat.one_ne_zero, rfl⟩

/-- What the reads so far have left: each descriptor at its position, nothing else changed. -/
structure Reading (sys : System) (k₀ : Kernel) (m₀ : Mem) (opened : Int → Prop) (pos : Int → Nat)
    (s : Kernel × Mem) : Prop where
  own : pcbAddr s.1.pid = getPcbAddr s.1
  image : SameImage sys.fs s.2 m₀
  entries : ∀ fd, opened fd → entryAt s.1 fd = { entryAt k₀ fd with filePosition := pos fd }
  inside : ∀ fd, opened fd → pos fd ≤ dataLength m₀ sys.fs (entryAt k₀ fd).inode

def fileOf (sys : System) (k₀ : Kernel) (m₀ : Mem) (fd : Int) : List UInt8 :=
  fileBytes m₀ sys.fs (entryAt k₀ fd).inode

theorem next_fileBytes (pos : Int → Nat) (fd : Int) (n : Nat) :
    next (fileOf sys k₀ m₀) pos fd n =
      (List.range (min n (dataLength m₀ sys.fs (entryAt k₀ fd).inode - pos fd))).map
        (fun j => fileByte m₀ sys.fs (entryAt k₀ fd).inode (pos fd + j)) := by
  apply List.ext_getElem
  · simp [next, fileOf, fileBytes]
  · intro j h₁ h₂
    simp [next, fileOf, fileBytes]

theorem readDispatch_file {fd : Int} {buf : Nat} (hfd : 2 ≤ fd ∧ fd ≤ maxFdNum) (hbuf : buf ≠ 0)
    (hused : (entryAt k fd).flags ≠ 0) {ops : FileOps} (hops : (entryAt k fd).fOp = some ops) :
    readDispatch fd buf k = .enter ops := by
  have hvalid : ¬ (maxFdNum < fd ∨ fd < 0 ∨ fd = 1 ∨ buf = 0) := by
    simp only [maxFdNum] at hfd ⊢
    omega
  simp only [readDispatch, if_neg hvalid, if_neg hused, hops]

theorem GoodBuffer.u32_nbytes {c : ReadArgs} (h : GoodBuffer fs c) :
    u32 c.nbytes = c.nbytes.toNat := by
  have h0 := h.nonneg
  have h1 := h.small
  simp only [u32]
  omega

/-- What earlier calls have left in memory does not change what a file delivers. -/
theorem readData_regular (hm : Mounted fs) (hreg : RegularFile m₀ fs inode)
    (h : SameImage fs m m₀) {offset buf n : Nat} (hsum : offset + n < 4294967296)
    (hbuf : buf + n ≤ 4294967296) (hout : Outside fs buf n) :
    readData m fs inode offset buf n = (((min n (dataLength m₀ fs inode - offset) : Nat) : Int),
      fill m buf (fun j => fileByte m₀ fs inode (offset + j))
        (min n (dataLength m₀ fs inode - offset))) := by
  have hlen := dataLength_congr hm hreg.stored h
  have hshort := hreg.short
  have hgood : ∀ i, i ≤ dataLength m₀ fs inode / blockSize → GoodBlock m fs inode i :=
    fun i hi => (goodBlock_congr hm hreg.stored h).mpr (hreg.goodBlock hi)
  simp only [blockSize] at hshort
  rw [readData_eq hm hreg.stored hsum hbuf (by rw [hlen]; omega) (by rwa [hlen]) hout, hlen]
  congr 1
  apply fill_congr
  intro j hj
  exact fileByte_congr hm hreg.stored (hgood _ (Nat.div_le_div_right (by omega))) h

/-- One `read` on a regular file, in any state that earlier reads have left. -/
theorem read_step (hm : Mounted sys.fs) {opened : Int → Prop} {pos : Int → Nat} {s : Kernel × Mem}
    (h : Reading sys k₀ m₀ opened pos s) {c : ReadArgs} (ho : opened c.fd)
    (hf : OpenedFile sys k₀ m₀ c.fd) (hb : GoodBuffer sys.fs c) {count : Nat}
    (hcount : count = min c.nbytes.toNat
      (dataLength m₀ sys.fs (entryAt k₀ c.fd).inode - pos c.fd)) :
    readCall sys c.fd c.buf c.nbytes s.1 s.2 =
      some ((count : Int),
        setEntry c.fd (fun e => { e with filePosition := pos c.fd + count }) s.1,
        fill s.2 c.buf (fun j => fileByte m₀ sys.fs (entryAt k₀ c.fd).inode (pos c.fd + j)) count) := by
  have hentry := h.entries c.fd ho
  have hreg := hf.file
  have hinside := h.inside c.fd ho
  have hshort := hreg.short
  have hsmall : c.nbytes.toNat < 2147483648 := by
    have h1 := hb.small
    omega
  simp only [blockSize] at hshort
  have hread := readData_regular hm hreg h.image
    (show pos c.fd + c.nbytes.toNat < 4294967296 by omega) hb.fits hb.outside
  rw [← hcount] at hread
  have hflags : (entryAt s.1 c.fd).flags ≠ 0 := by
    rw [hentry]
    exact hf.used
  have hops : (entryAt s.1 c.fd).fOp = some .file := by
    rw [hentry]
    exact hf.ops
  have hown : ((s.1.pcbs (pcbAddr s.1.pid)).fileArray c.fd) =
      { entryAt k₀ c.fd with filePosition := pos c.fd } := by
    rw [h.own]
    exact hentry
  have hne : ¬ ((count : Int) = -1) := by omega
  have hpos : u32 ((pos c.fd : Int) + (count : Int)) = pos c.fd + count := by
    simp only [u32]
    omega
  simp only [readCall, readDispatch_file hf.valid hb.notNull hflags hops, fileRead,
    if_neg (not_standard hf.valid), hown, hb.u32_nbytes, hread, ne_eq, hne, not_false_eq_true,
    if_true, hpos]
  rw [setFilePosition, h.own, setEntry]

theorem reading_step {opened : Int → Prop} {pos : Int → Nat} {s : Kernel × Mem}
    (h : Reading sys k₀ m₀ opened pos s) {c : ReadArgs} {count : Nat}
    (hb : GoodBuffer sys.fs c)
    (hcount : count = min c.nbytes.toNat
      (dataLength m₀ sys.fs (entryAt k₀ c.fd).inode - pos c.fd)) :
    Reading sys k₀ m₀ opened (advance (fileOf sys k₀ m₀) pos c.fd c.nbytes.toNat)
      (setEntry c.fd (fun e => { e with filePosition := pos c.fd + count }) s.1,
        fill s.2 c.buf (fun j => fileByte m₀ sys.fs (entryAt k₀ c.fd).inode (pos c.fd + j))
          count) := by
  have hadvance : advance (fileOf sys k₀ m₀) pos c.fd c.nbytes.toNat =
      Function.update pos c.fd (pos c.fd + count) := by
    rw [advance, next_fileBytes, List.length_map, List.length_range, ← hcount]
  have hout : Outside sys.fs c.buf count := by
    have ho := hb.outside
    simp only [Outside] at ho ⊢
    omega
  have hfill := sameImage_fill hout s.2
    fun j => fileByte m₀ sys.fs (entryAt k₀ c.fd).inode (pos c.fd + j)
  rw [hadvance]
  refine ⟨h.own, agreeOn_trans hfill h.image, fun fd ho => ?_, fun fd ho => ?_⟩
  · rw [entryAt_setEntry]
    by_cases hfd : fd = c.fd
    · subst hfd
      rw [if_pos rfl, Function.update_self, h.entries c.fd ho]
    · rw [if_neg hfd, Function.update_of_ne hfd, h.entries fd ho]
  · by_cases hfd : fd = c.fd
    · subst hfd
      have hi := h.inside c.fd ho
      rw [Function.update_self]
      omega
    · rw [Function.update_of_ne hfd]
      exact h.inside fd ho

structure Delivery where
  fd : Int
  value : Int
  bytes : List UInt8
  deriving DecidableEq

/-- The reads of a process one after the other, up to the first that does not return. -/
def deliveries (sys : System) : List ReadArgs → Kernel × Mem → List Delivery
  | [], _ => []
  | c :: cs, s =>
    match readCall sys c.fd c.buf c.nbytes s.1 s.2 with
    | none => []
    | some (value, k, m) =>
      ⟨c.fd, value, readBytes m c.buf value.toNat⟩ :: deliveries sys cs (k, m)

def readStep (sys : System) (s : Kernel × Mem) (c : ReadArgs) : Kernel × Mem :=
  match readCall sys c.fd c.buf c.nbytes s.1 s.2 with
  | none => s
  | some (_, k, m) => (k, m)

def returnedOn (fd : Int) (ds : List Delivery) : Int :=
  (ds.filter (fun d => d.fd = fd)).foldr (fun d total => d.value + total) 0

def bytesOn (fd : Int) (ds : List Delivery) : List UInt8 :=
  (ds.filter (fun d => d.fd = fd)).flatMap (fun d => d.bytes)

def deliver (d : Int × List UInt8) : Delivery := ⟨d.1, d.2.length, d.2⟩

def request (c : ReadArgs) : Int × Nat := (c.fd, c.nbytes.toNat)

theorem bytesOn_deliver (fd : Int) (ds : List (Int × List UInt8)) :
    bytesOn fd (ds.map deliver) = collected fd ds := by
  induction ds with
  | nil => rfl
  | cons d ds ih =>
    obtain ⟨i, l⟩ := d
    by_cases hi : i = fd
    · subst hi
      rw [collected_cons_self, ← ih]
      simp [bytesOn, deliver]
    · rw [collected_cons_other hi, ← ih]
      simp [bytesOn, deliver, hi]

theorem returnedOn_deliver (fd : Int) (ds : List (Int × List UInt8)) :
    returnedOn fd (ds.map deliver) = (collected fd ds).length := by
  induction ds with
  | nil => rfl
  | cons d ds ih =>
    obtain ⟨i, l⟩ := d
    by_cases hi : i = fd
    · subst hi
      rw [collected_cons_self, List.length_append, Int.natCast_add, ← ih]
      simp [returnedOn, deliver]
    · rw [collected_cons_other hi, ← ih]
      simp [returnedOn, deliver, hi]

variable {opened : Int → Prop} {pos : Int → Nat} {s : Kernel × Mem} {cs : List ReadArgs}

theorem reads_refine (hm : Mounted sys.fs) (h : Reading sys k₀ m₀ opened pos s)
    (hcs : ∀ c ∈ cs, opened c.fd ∧ OpenedFile sys k₀ m₀ c.fd ∧ GoodBuffer sys.fs c) :
    deliveries sys cs s = (serve (fileOf sys k₀ m₀) pos (cs.map request)).map deliver ∧
      Reading sys k₀ m₀ opened (after (fileOf sys k₀ m₀) pos (cs.map request))
        (run (readStep sys) s cs) := by
  induction cs generalizing pos s with
  | nil =>
    refine ⟨rfl, ?_⟩
    have hpos : after (fileOf sys k₀ m₀) pos [] = pos := by
      funext fd
      simp [after, serve]
    rwa [List.map_nil, hpos]
  | cons c cs ih =>
    obtain ⟨ho, hf, hb⟩ := hcs c (by simp)
    have hread := read_step hm h ho hf hb rfl
    have hnext := reading_step h hb rfl
    obtain ⟨hd, hr⟩ := ih hnext fun c' hc' => hcs c' (by simp [hc'])
    refine ⟨?_, ?_⟩
    · simp only [deliveries, hread, hd, List.map_cons, request, serve, deliver]
      rw [Int.toNat_natCast, readBytes_fill, next_fileBytes]
      simp
    · rw [run_cons, List.map_cons, request, after_cons]
      simp only [readStep, hread]
      exact hr

theorem reading_start (hown : k.pid = k.terminalProcessInfo k.currentTerminalId)
    (hopened : ∀ fd, opened fd → OpenedFile sys k m fd) :
    Reading sys k m opened (fun _ => 0) (k, m) where
  own := by rw [getPcbAddr, hown]
  image _ _ _ := rfl
  entries fd ho := by
    have hp := (hopened fd ho).position
    rw [← hp]
  inside _ _ := Nat.zero_le _

end RedstoneOS.SequentialReads
