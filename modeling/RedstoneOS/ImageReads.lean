import RedstoneOS.Directory

namespace RedstoneOS.ImageReads

open KernelState Lib Library.ByteMemory Filesystem ReadData Execute Syscalls
open SequentialReads Directory

variable {sys : System} {k : Kernel} {m : Mem} {fs : FsInfo} {fd : Int} {buf : Nat} {nbytes : Int}

theorem strncpyPad_eq (dest r i : Nat) (m : Mem) :
    strncpyPad dest r i m = fill m (dest + i) (fun _ => 0) r := by
  induction r generalizing i m with
  | zero => rw [strncpyPad, fill_zero]
  | succ r ih => rw [strncpyPad, ih, fill_succ, Nat.add_assoc]

theorem strncpyFrom_eq (dest src : Nat) {r i len : Nat} {m : Mem} (hi : i ≤ len)
    (hne : ∀ j, j < len → m (src + j) ≠ 0) (hend : m (src + len) = 0)
    (hapart : src + len < dest + i ∨ dest + i + r ≤ src) :
    strncpyFrom dest src r i m =
      fill m (dest + i) (fun j => if i + j < len then m (src + (i + j)) else 0) r := by
  induction r generalizing i m with
  | zero => rw [strncpyFrom, fill_zero]
  | succ r ih =>
    by_cases hlast : i = len
    · subst hlast
      rw [strncpyFrom, if_pos hend, strncpyPad_eq]
      exact fill_congr _ _ fun j _ => by rw [if_neg (by omega)]
    · have hkeep : ∀ j, j ≤ len →
          Function.update m (dest + i) (m (src + i)) (src + j) = m (src + j) :=
        fun j hj => Function.update_of_ne (by omega) _ _
      rw [strncpyFrom, if_neg (hne i (by omega)), ih (by omega)
        (fun j hj => by rw [hkeep j (by omega)]; exact hne j hj)
        (by rw [hkeep len le_rfl]; exact hend) (by omega), fill_succ, Nat.add_zero,
        if_pos (by omega), Nat.add_assoc]
      apply fill_congr
      intro j _
      have hnext : i + 1 + j = i + (j + 1) := by omega
      simp only [hnext]
      split
      · exact hkeep _ (by omega)
      · rfl

def paddedName (m : Mem) (fs : FsInfo) (i j : Nat) : UInt8 :=
  if j < nameLength m fs i then m (dirEntryAddr fs i + j) else 0

theorem strncpy_entry {m₀ : Mem} (hn : fs.fileSize ≤ 63) {i n : Nat} (hi : i < fs.fileSize)
    (hends : NameEnds m₀ fs i) (hout : Outside fs buf n) (h : SameImage fs m m₀) :
    strncpy m buf (dirEntryAddr fs i) n = fill m buf (paddedName m₀ fs i) n := by
  have hlen := nameLength_congr hn hi h
  have hle := nameLength_le m fs i
  have hlo := entry_inside hn hi (Nat.zero_le maxFilenameLen)
  have hhi := entry_inside hn hi hle
  simp only [Outside] at hout
  rw [strncpy, strncpyFrom_eq buf _ (Nat.zero_le _) (fun j hj => nameLength_ne hj)
    ((nameEnds_congr hn hi h).mpr hends) (by omega)]
  apply fill_congr
  intro j _
  rw [paddedName, Nat.zero_add, hlen]
  split
  · have hin := entry_inside hn hi (show j ≤ maxFilenameLen by omega)
    exact h _ hin.1 hin.2
  · rfl

/-- The descriptor that a `read` finds stands for a regular file, or for a directory whose names
end. -/
structure Readable (sys : System) (fd : Int) (nbytes : Int) (k : Kernel) : Prop where
  file : (entryAt k fd).fOp = some .file →
    RegularFile sys.mem sys.fs ((k.pcbs (pcbAddr k.pid)).fileArray fd).inode ∧
      ((k.pcbs (pcbAddr k.pid)).fileArray fd).filePosition + nbytes.toNat < 4294967296
  directory : (entryAt k fd).fOp = some .directory → sys.fs.fileSize ≤ 63 ∧
    ((k.pcbs (pcbAddr k.pid)).fileArray fd).filePosition + 1 < 4294967296 ∧
      (1 + ((k.pcbs (pcbAddr k.pid)).fileArray fd).filePosition < sys.fs.fileSize →
        NameEnds sys.mem sys.fs ((k.pcbs (pcbAddr k.pid)).fileArray fd).filePosition)

/-- The value, the kernel and the bytes that `read` leaves, the same in every memory that holds the
image. -/
def Uniform (sys : System) (buf limit : Nat) (f : Mem → Int × Kernel × Mem) : Prop :=
  ∃ value k' g n, n ≤ limit ∧
    ∀ m, SameImage sys.fs m sys.mem → f m = (value, k', fill m buf g n)

theorem uniform_const (value : Int) (k' : Kernel) (limit : Nat) :
    Uniform sys buf limit fun m => (value, k', m) :=
  ⟨value, k', fun _ => 0, 0, Nat.zero_le limit, fun m _ => by rw [fill_zero]⟩

theorem fileRead_uniform (hm : Mounted sys.fs) (h0 : 0 ≤ nbytes) (hsmall : nbytes < 2147483648)
    (hfits : buf + nbytes.toNat ≤ 4294967296) (hout : Outside sys.fs buf nbytes.toNat)
    (hfile : RegularFile sys.mem sys.fs ((k.pcbs (pcbAddr k.pid)).fileArray fd).inode)
    (hend : ((k.pcbs (pcbAddr k.pid)).fileArray fd).filePosition + nbytes.toNat < 4294967296) :
    Uniform sys buf nbytes.toNat (fileRead sys.fs fd buf nbytes k) := by
  have hu32 : u32 nbytes = nbytes.toNat := by
    simp only [u32]
    omega
  by_cases hfd : fd ≤ 1 ∨ maxFdNumber ≤ fd
  · have hrefused : fileRead sys.fs fd buf nbytes k = fun m => (-1, k, m) := by
      funext m
      rw [fileRead, if_pos hfd]
    rw [hrefused]
    exact uniform_const _ _ _
  · generalize hentry : (k.pcbs (pcbAddr k.pid)).fileArray fd = entry at *
    let count := min nbytes.toNat (dataLength sys.mem sys.fs entry.inode - entry.filePosition)
    have hvalue : (count : Int) ≠ -1 := by omega
    refine ⟨count, setFilePosition (pcbAddr k.pid) fd (u32 (entry.filePosition + count)) k,
      fun j => fileByte sys.mem sys.fs entry.inode (entry.filePosition + j), count,
      min_le_left _ _, fun m hsame => ?_⟩
    have hread := readData_regular hm hfile hsame hend hfits hout
    simp only [fileRead, if_neg hfd, hentry, hu32, hread, ne_eq, hvalue, not_false_eq_true, if_true,
      count]

theorem dirRead_uniform (h0 : 0 ≤ nbytes) (hsmall : nbytes < 2147483648)
    (hout : Outside sys.fs buf nbytes.toNat) (hn : sys.fs.fileSize ≤ 63)
    (hend : ((k.pcbs (pcbAddr k.pid)).fileArray fd).filePosition + 1 < 4294967296)
    (hname : 1 + ((k.pcbs (pcbAddr k.pid)).fileArray fd).filePosition < sys.fs.fileSize →
      NameEnds sys.mem sys.fs ((k.pcbs (pcbAddr k.pid)).fileArray fd).filePosition) :
    Uniform sys buf nbytes.toNat (dirRead sys.fs fd buf nbytes k) := by
  have hu32 : u32 nbytes = nbytes.toNat := by
    simp only [u32]
    omega
  generalize hoffset : ((k.pcbs (pcbAddr k.pid)).fileArray fd).filePosition = offset at *
  have hwrap : wrap (1 + offset) = 1 + offset := Nat.mod_eq_of_lt (by omega)
  by_cases hpast : sys.fs.fileSize ≤ 1 + offset
  · have hzero : dirRead sys.fs fd buf nbytes k =
        fun m => (0, setFilePosition (pcbAddr k.pid) fd (wrap (offset + 1)) k, m) := by
      funext m
      simp only [dirRead, hoffset, hwrap, if_pos hpast]
    rw [hzero]
    exact uniform_const _ _ _
  · by_cases hfd : fd ≤ 1 ∨ maxFdNumber ≤ fd
    · have hrefused : dirRead sys.fs fd buf nbytes k =
          fun m => (-1, setFilePosition (pcbAddr k.pid) fd (wrap (offset + 1)) k, m) := by
        funext m
        simp only [dirRead, hoffset, hwrap, if_neg hpast, if_pos hfd]
      rw [hrefused]
      exact uniform_const _ _ _
    · have hlt : offset < sys.fs.fileSize := by omega
      have hends := hname (by omega)
      refine ⟨(nameLength sys.mem sys.fs offset : Int),
        setFilePosition (pcbAddr k.pid) fd (wrap (offset + 1)) k,
        paddedName sys.mem sys.fs offset, nbytes.toNat, le_rfl, fun m hsame => ?_⟩
      have hcopy := strncpy_entry hn hlt hends hout hsame
      have himage : SameImage sys.fs (fill m buf (paddedName sys.mem sys.fs offset) nbytes.toNat)
          sys.mem := agreeOn_trans (sameImage_fill hout m _) hsame
      have hstrlen := (s32_strlen_iff (fill m buf (paddedName sys.mem sys.fs offset) nbytes.toNat)
        sys.fs offset).mpr ((nameEnds_congr hn hlt himage).mpr hends)
      rw [nameLength_congr hn hlt himage] at hstrlen
      simp only [dirRead, hoffset, hwrap, if_neg hpast, if_neg hfd, hu32, hcopy, hstrlen]

/-- A `read` into a buffer outside the image looks at nothing but the image. -/
theorem readCall_uniform (hm : Mounted sys.fs) (h : Readable sys fd nbytes k) (h0 : 0 ≤ nbytes)
    (hsmall : nbytes < 2147483648) (hfits : buf + nbytes.toNat ≤ 4294967296)
    (hout : Outside sys.fs buf nbytes.toNat) :
    (∀ m, readCall sys fd buf nbytes k m = none) ∨
      ∃ f, Uniform sys buf nbytes.toNat f ∧ ∀ m, readCall sys fd buf nbytes k m = some (f m) := by
  cases hdispatch : readDispatch fd buf k with
  | ret value =>
    exact Or.inr ⟨_, uniform_const value k _, fun m => by rw [readCall, hdispatch]⟩
  | nullCall => exact Or.inl fun m => by rw [readCall, hdispatch]
  | enter ops =>
    have hops : (entryAt k fd).fOp = some ops := by
      rw [readDispatch] at hdispatch
      split at hdispatch
      · exact absurd hdispatch (by simp)
      · split at hdispatch
        · exact absurd hdispatch (by simp)
        · split at hdispatch
          · exact absurd hdispatch (by simp)
          · next hf =>
            rw [hf, ReadDispatch.enter.inj hdispatch]
    cases ops with
    | file =>
      obtain ⟨hfile, hend⟩ := h.file hops
      exact Or.inr ⟨_, fileRead_uniform hm h0 hsmall hfits hout hfile hend, fun m => by
        rw [readCall, hdispatch]⟩
    | directory =>
      obtain ⟨hn, hend, hname⟩ := h.directory hops
      exact Or.inr ⟨_, dirRead_uniform h0 hsmall hout hn hend hname, fun m => by
        rw [readCall, hdispatch]⟩
    | terminal => exact Or.inl fun m => by rw [readCall, hdispatch]
    | rtc => exact Or.inl fun m => by rw [readCall, hdispatch]

end RedstoneOS.ImageReads
