import RedstoneOS.SequentialReads

namespace RedstoneOS.Directory

open KernelState Lib Library.ByteMemory Filesystem ReadData Execute Syscalls ExecuteChecks
open SequentialReads

variable {sys : System} {k : Kernel} {m m₀ : Mem} {fs : FsInfo} {fd : Int} {p : Nat}

/-- How far the name field of a directory entry is from its first NUL or its end. -/
def nameLength (m : Mem) (fs : FsInfo) (i : Nat) : Nat :=
  strlenFrom m (dirEntryAddr fs i) maxFilenameLen 0

def entryName (m : Mem) (fs : FsInfo) (i : Nat) : List UInt8 :=
  readBytes m (dirEntryAddr fs i) (nameLength m fs i)

/-- The name is shorter than its field, or the file type behind the field begins with 0. -/
def NameEnds (m : Mem) (fs : FsInfo) (i : Nat) : Prop :=
  m (dirEntryAddr fs i + nameLength m fs i) = 0

instance (m : Mem) (fs : FsInfo) (i : Nat) : Decidable (NameEnds m fs i) :=
  inferInstanceAs (Decidable (_ = _))

theorem nameLength_le (m : Mem) (fs : FsInfo) (i : Nat) : nameLength m fs i ≤ maxFilenameLen := by
  have h := strlenFrom_le m (dirEntryAddr fs i) maxFilenameLen 0
  rwa [Nat.zero_add] at h

theorem nameLength_ne {i j : Nat} (hj : j < nameLength m fs i) : m (dirEntryAddr fs i + j) ≠ 0 :=
  strlenFrom_ne m (dirEntryAddr fs i) (Nat.zero_le j) hj

theorem nameEnds_of_short {i : Nat} (h : nameLength m fs i < maxFilenameLen) : NameEnds m fs i :=
  strlenFrom_stop m (dirEntryAddr fs i) (by rwa [Nat.zero_add])

/-- `strlen` of an entry is the length of its name when the name ends, and only then: as an
`int32_t` the length of a longer walk is never that of a full name field. -/
theorem s32_strlen_iff (m : Mem) (fs : FsInfo) (i : Nat) :
    s32 (strlen m (dirEntryAddr fs i)) = (nameLength m fs i : Int) ↔ NameEnds m fs i := by
  have hle := nameLength_le m fs i
  simp only [maxFilenameLen] at hle
  constructor
  · intro h
    by_contra hends
    have hfull : nameLength m fs i = maxFilenameLen := by
      by_contra hne
      exact hends (nameEnds_of_short (Nat.lt_of_le_of_ne (nameLength_le m fs i) hne))
    have hlong : maxFilenameLen + 1 ≤ strlen m (dirEntryAddr fs i) := by
      refine strlenFrom_ge m (dirEntryAddr fs i) (Nat.zero_le _) (by decide) fun j _ hj => ?_
      by_cases hlast : j = nameLength m fs i
      · rw [hlast]
        exact hends
      · exact nameLength_ne (by omega)
    have hbound : strlen m (dirEntryAddr fs i) ≤ 0 + addressSpace :=
      strlenFrom_le m (dirEntryAddr fs i) addressSpace 0
    generalize strlen m (dirEntryAddr fs i) = len at h hlong hbound
    simp only [s32, hfull, maxFilenameLen, addressSpace] at h hlong hbound
    split at h <;> omega
  · intro hends
    have hlen : strlen m (dirEntryAddr fs i) = nameLength m fs i :=
      strlenFrom_eq m (dirEntryAddr fs i) (Nat.zero_le _) (by simp only [addressSpace]; omega)
        (fun j _ hj => nameLength_ne hj) (Or.inr hends)
    rw [hlen, s32, if_pos (by omega)]

theorem entry_inside (hn : fs.fileSize ≤ 63) {i j : Nat} (hi : i < fs.fileSize)
    (hj : j ≤ maxFilenameLen) :
    fs.bootblkAddr ≤ dirEntryAddr fs i + j ∧ dirEntryAddr fs i + j < imageEnd fs := by
  simp only [maxFilenameLen] at hj
  simp only [dirEntryAddr, imageEnd, blockSize]
  omega

theorem nameLength_congr (hn : fs.fileSize ≤ 63) {i : Nat} (hi : i < fs.fileSize)
    (h : SameImage fs m m₀) : nameLength m fs i = nameLength m₀ fs i := by
  apply strlenFrom_congr
  intro j _ hj
  have hin := entry_inside hn hi (show j ≤ maxFilenameLen by omega)
  exact h _ hin.1 hin.2

theorem nameEnds_congr (hn : fs.fileSize ≤ 63) {i : Nat} (hi : i < fs.fileSize)
    (h : SameImage fs m m₀) : NameEnds m fs i ↔ NameEnds m₀ fs i := by
  have hin := entry_inside hn hi (nameLength_le m fs i)
  rw [NameEnds, NameEnds, ← nameLength_congr hn hi h, h _ hin.1 hin.2]

theorem entryName_congr (hn : fs.fileSize ≤ 63) {i : Nat} (hi : i < fs.fileSize)
    (h : SameImage fs m m₀) : entryName m fs i = entryName m₀ fs i := by
  rw [entryName, entryName, nameLength_congr hn hi h]
  apply List.map_congr_left
  intro j hj
  have hle := nameLength_le m₀ fs i
  have hin := entry_inside hn hi (show j ≤ maxFilenameLen by
    have hlt := List.mem_range.mp hj
    omega)
  exact h _ hin.1 hin.2

theorem strncpy_name (hn : fs.fileSize ≤ 63) {i : Nat} (hi : i < fs.fileSize) {buf n : Nat}
    (hlen : maxFilenameLen ≤ n) (hout : Outside fs buf n) :
    SameImage fs (strncpy m buf (dirEntryAddr fs i) n) m ∧
      readBytes (strncpy m buf (dirEntryAddr fs i) n) buf (nameLength m fs i) =
        entryName m fs i := by
  have hle := nameLength_le m fs i
  have hlo := entry_inside hn hi (Nat.zero_le maxFilenameLen)
  have hhi := entry_inside hn hi hle
  simp only [Outside] at hout
  constructor
  · intro b hb he
    exact strncpyFrom_outside buf _ m (by omega)
  · apply List.map_congr_left
    intro j hj
    have hlt := List.mem_range.mp hj
    exact strncpyFrom_copies buf _ m (k := nameLength m fs i) (by omega) (by omega)
      (fun l _ hl => nameLength_ne hl) (Nat.zero_le j) hlt

structure Listing (sys : System) (m₀ : Mem) (fd : Int) (p : Nat) (s : Kernel × Mem) : Prop where
  own : pcbAddr s.1.pid = getPcbAddr s.1
  image : SameImage sys.fs s.2 m₀
  ops : (entryAt s.1 fd).fOp = some .directory
  used : (entryAt s.1 fd).flags ≠ 0
  position : (entryAt s.1 fd).filePosition = p

/-- The answer to the read at position `p`: the entry before the last one is the last that
is ever read. -/
structure DirAnswer (m : Mem) (fs : FsInfo) (p : Nat) (d : Delivery) : Prop where
  past : fs.fileSize ≤ 1 + p → d.value = 0 ∧ d.bytes = []
  value : 1 + p < fs.fileSize → (d.value = (nameLength m fs p : Int) ↔ NameEnds m fs p)
  name : 1 + p < fs.fileSize → NameEnds m fs p → d.bytes = entryName m fs p

theorem dir_step (hn : sys.fs.fileSize ≤ 63) {s : Kernel × Mem} (h : Listing sys m₀ fd p s)
    (hfd : 2 ≤ fd ∧ fd ≤ maxFdNum) (hp : p + 1 < 4294967296) {c : ReadArgs} (hc : c.fd = fd)
    (hb : GoodBuffer sys.fs c) (hlen : 32 ≤ c.nbytes) :
    ∃ value s', readCall sys c.fd c.buf c.nbytes s.1 s.2 = some (value, s') ∧
      Listing sys m₀ fd (p + 1) s' ∧
      DirAnswer m₀ sys.fs p ⟨c.fd, value, readBytes s'.2 c.buf value.toNat⟩ := by
  subst hc
  have hpos : ((s.1.pcbs (pcbAddr s.1.pid)).fileArray c.fd).filePosition = p := by
    rw [h.own]
    exact h.position
  have hk : setFilePosition (pcbAddr s.1.pid) c.fd (wrap (p + 1)) s.1 =
      setEntry c.fd (fun e => { e with filePosition := p + 1 }) s.1 := by
    rw [setFilePosition, h.own, setEntry, wrap_of_lt hp]
  have hnext : ∀ m', SameImage sys.fs m' m₀ → Listing sys m₀ c.fd (p + 1)
      (setEntry c.fd (fun e => { e with filePosition := p + 1 }) s.1, m') := by
    intro m' hm'
    refine ⟨h.own, hm', ?_, ?_, ?_⟩ <;> rw [entryAt_setEntry, if_pos rfl]
    · exact h.ops
    · exact h.used
  have hcall : readCall sys c.fd c.buf c.nbytes s.1 s.2 =
      some (dirRead sys.fs c.fd c.buf c.nbytes s.1 s.2) := by
    simp only [readCall, readDispatch_file hfd hb.notNull h.used h.ops]
  rw [hcall, dirRead]
  simp only [hpos, hk, hb.u32_nbytes, if_neg (not_standard hfd),
    wrap_of_lt (show 1 + p < 4294967296 by omega)]
  by_cases hend : sys.fs.fileSize ≤ 1 + p
  · rw [if_pos hend]
    refine ⟨0, _, rfl, hnext s.2 h.image, fun _ => ⟨rfl, rfl⟩, ?_, ?_⟩
    · intro hlt
      omega
    · intro hlt
      omega
  · rw [if_neg hend]
    have hlt : p < sys.fs.fileSize := by omega
    obtain ⟨hsame, hname⟩ := strncpy_name (m := s.2) hn hlt
      (show maxFilenameLen ≤ c.nbytes.toNat by simp only [maxFilenameLen]; omega) hb.outside
    have himage : SameImage sys.fs (strncpy s.2 c.buf (dirEntryAddr sys.fs p) c.nbytes.toNat) m₀ :=
      agreeOn_trans hsame h.image
    have hvalue := s32_strlen_iff (strncpy s.2 c.buf (dirEntryAddr sys.fs p) c.nbytes.toNat) sys.fs p
    rw [nameLength_congr hn hlt himage, nameEnds_congr hn hlt himage] at hvalue
    refine ⟨_, _, rfl, hnext _ himage, fun hge => absurd hge hend, fun _ => hvalue, fun _ hends => ?_⟩
    dsimp only
    rw [hvalue.mpr hends, Int.toNat_natCast, ← nameLength_congr hn hlt h.image, hname,
      entryName_congr hn hlt h.image]

theorem list_reads (hn : sys.fs.fileSize ≤ 63) (hfd : 2 ≤ fd ∧ fd ≤ maxFdNum)
    {s : Kernel × Mem} {cs : List ReadArgs} (h : Listing sys m₀ fd p s)
    (hcs : ∀ c ∈ cs, c.fd = fd ∧ GoodBuffer sys.fs c ∧ 32 ≤ c.nbytes)
    (hbound : p + cs.length < 4294967296) :
    (deliveries sys cs s).length = cs.length ∧
      ∀ i d, (deliveries sys cs s)[i]? = some d → DirAnswer m₀ sys.fs (p + i) d := by
  induction cs generalizing p s with
  | nil => simp [deliveries]
  | cons c cs ih =>
    obtain ⟨hc, hb, hlen⟩ := hcs c (by simp)
    simp only [List.length_cons] at hbound
    obtain ⟨value, s', hread, hnext, hanswer⟩ := dir_step hn h hfd (by omega) hc hb hlen
    obtain ⟨hlength, hrest⟩ := ih hnext (fun c' hc' => hcs c' (by simp [hc'])) (by omega)
    simp only [deliveries, hread]
    refine ⟨by simp [hlength], fun i d hd => ?_⟩
    cases i with
    | zero =>
      simp only [List.getElem?_cons_zero, Option.some.injEq] at hd
      subst hd
      exact hanswer
    | succ i =>
      rw [List.getElem?_cons_succ] at hd
      have hd := hrest i d hd
      rwa [Nat.add_right_comm] at hd

structure Listed (m : Mem) (fs : FsInfo) (ds : List Delivery) : Prop where
  names : ∀ i d, ds[i]? = some d → i < fs.fileSize →
    d.value = ((entryName m fs i).length : Int) ∧ d.bytes = entryName m fs i
  zero : ∀ i d, ds[i]? = some d → fs.fileSize ≤ i → d.value = 0

theorem listing_start {filename : Option (List UInt8)} (h : (openCall sys filename k).1 = fd)
    (hfd : fd ≠ -1) (hdir : (entryAt (openCall sys filename k).2 fd).fOp = some .directory)
    (hown : k.pid = k.terminalProcessInfo k.currentTerminalId) :
    Listing sys m fd 0 ((openCall sys filename k).2, m) := by
  obtain ⟨-, ops, inode, hopen⟩ := openCall_opens h hfd
  obtain ⟨hused, hposition⟩ := entryAt_openCall h hfd
  refine ⟨?_, fun _ _ _ => rfl, hdir, hused, hposition⟩
  change pcbAddr (openCall sys filename k).2.pid = getPcbAddr (openCall sys filename k).2
  rw [hopen, getPcbAddr_setEntry, getPcbAddr, ← hown]
  rfl

/-- Whatever the directory holds, its listing is complete exactly when it is empty or its
last entry has no name and the name of every other entry ends. -/
theorem directory_listed_iff (hn : sys.fs.fileSize ≤ 63) {filename : Option (List UInt8)}
    (hopen : (openCall sys filename k).1 = fd) (hfd : fd ≠ -1)
    (hdir : (entryAt (openCall sys filename k).2 fd).fOp = some .directory)
    (hown : k.pid = k.terminalProcessInfo k.currentTerminalId) {cs : List ReadArgs}
    (hcs : ∀ c ∈ cs, c.fd = fd ∧ GoodBuffer sys.fs c ∧ 32 ≤ c.nbytes)
    (hall : sys.fs.fileSize ≤ cs.length) (hbound : cs.length < sys.fs.fileSize + 2147483648) :
    (deliveries sys cs ((openCall sys filename k).2, m)).length = cs.length ∧
      (Listed m sys.fs (deliveries sys cs ((openCall sys filename k).2, m)) ↔
        sys.fs.fileSize = 0 ∨ entryName m sys.fs (sys.fs.fileSize - 1) = [] ∧
          ∀ i, i + 1 < sys.fs.fileSize → NameEnds m sys.fs i) := by
  have hvalid := (openCall_opens hopen hfd).1
  have hstart : Listing sys m fd 0 ((openCall sys filename k).2, m) :=
    listing_start hopen hfd hdir hown
  obtain ⟨hlength, hanswers⟩ := list_reads hn hvalid hstart hcs (by omega)
  simp only [Nat.zero_add] at hanswers
  have hname : ∀ i, (entryName m sys.fs i).length = nameLength m sys.fs i :=
    fun i => readBytes_length _ _ _
  refine ⟨hlength, ?_, ?_⟩
  · intro hlisted
    have hget : ∀ i, i < sys.fs.fileSize → ∃ d,
        (deliveries sys cs ((openCall sys filename k).2, m))[i]? = some d :=
      fun i hi => ⟨_, List.getElem?_eq_getElem (by omega)⟩
    by_cases h0 : sys.fs.fileSize = 0
    · exact Or.inl h0
    · refine Or.inr ⟨?_, fun i hi => ?_⟩
      · obtain ⟨d, hd⟩ := hget (sys.fs.fileSize - 1) (by omega)
        have hzero := (hanswers _ d hd).past (by omega)
        have hlast := (hlisted.names _ d hd (by omega)).2
        rw [← hlast, hzero.2]
      · obtain ⟨d, hd⟩ := hget i (by omega)
        rw [← (hanswers i d hd).value (by omega), (hlisted.names i d hd (by omega)).1, hname]
  · intro hcond
    constructor
    · intro i d hd hi
      obtain h0 | ⟨hlast, hends⟩ := hcond
      · omega
      · by_cases hil : i + 1 < sys.fs.fileSize
        · have ha := hanswers i d hd
          exact ⟨by rw [hname, (ha.value (by omega)).mpr (hends i hil)], ha.name (by omega) (hends i hil)⟩
        · obtain ⟨hvalue, hbytes⟩ := (hanswers i d hd).past (by omega)
          have hi' : i = sys.fs.fileSize - 1 := by omega
          rw [hvalue, hbytes, hi', hlast]
          exact ⟨rfl, rfl⟩
    · exact fun i d hd hi => ((hanswers i d hd).past (by omega)).1

def tinyShell : Kernel := (Library.Runs.run (KernelRuns.step tinySystem) tinyInitial [tinyTick]).kernel

def tinyList : List ReadArgs := [⟨2, 0x8000000, 32⟩, ⟨2, 0x8000000, 32⟩, ⟨2, 0x8000000, 32⟩]

theorem tinyList_valid :
    ∀ c ∈ tinyList, c.fd = 2 ∧ GoodBuffer tinySystem.fs c ∧ 32 ≤ c.nbytes := by
  intro c hc
  simp only [tinyList, List.mem_cons, List.not_mem_nil, or_false, or_self] at hc
  subst hc
  exact ⟨rfl, ⟨by decide, by decide, by decide, by decide, Or.inr (by decide)⟩, by decide⟩

theorem directory_listed_iff_tiny :
    (deliveries tinySystem tinyList ((openCall tinySystem (some [46]) tinyShell).2, tinyMem)).length = 3 :=
  And.left (directory_listed_iff (by decide) rfl (by decide) (by decide) (by decide) tinyList_valid
    (by decide) (by decide))

/-- Two entries, "." and "shell": the second read already returns 0. -/
theorem last_entry_not_listed :
    tinySystem.fs.fileSize = 2 ∧ ¬ Listed tinyMem tinySystem.fs
      (deliveries tinySystem tinyList ((openCall tinySystem (some [46]) tinyShell).2, tinyMem)) := by
  refine ⟨rfl, fun h => ?_⟩
  have hsecond : (deliveries tinySystem tinyList
      ((openCall tinySystem (some [46]) tinyShell).2, tinyMem))[1]? = some ⟨2, 0, []⟩ := by
    decide +kernel
  have hname : entryName tinyMem tinySystem.fs 1 = tinySystem.shell := by decide +kernel
  have hvalue := (h.names 1 _ hsecond (by decide)).1
  rw [hname] at hvalue
  exact absurd hvalue (by decide)

end RedstoneOS.Directory
