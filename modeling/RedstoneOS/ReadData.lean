import RedstoneOS.Filesystem

namespace RedstoneOS.ReadData

open KernelState Lib Library.ByteMemory Filesystem

/-- One past the last byte of the image: boot block, inodes and data blocks. -/
def imageEnd (fs : FsInfo) : Nat :=
  fs.bootblkAddr + blockSize * (1 + fs.inodeNumLoc + fs.dataBlockLoc)

/-- The image lies in the address space, so that block addresses do not wrap around. -/
structure Mounted (fs : FsInfo) : Prop where
  inodes : 0 < fs.inodeNumLoc → fs.inodeStartNum = fs.bootblkAddr + blockSize
  blocks : 0 < fs.dataBlockLoc →
    fs.dataBlockBegin = fs.bootblkAddr + blockSize + fs.inodeNumLoc * blockSize
  fits : imageEnd fs ≤ 4294967296

theorem mounted_fsInit (m : Mem) (addr : Nat) (h : imageEnd (fsInit m addr) ≤ 4294967296) :
    Mounted (fsInit m addr) := by
  have hend := h
  simp only [imageEnd, fsInit, blockSize] at hend
  constructor
  · intro hi
    simp only [fsInit, wrap, blockSize] at hi ⊢
    omega
  · intro hb
    simp only [fsInit, wrap, blockSize] at hb ⊢
    omega
  · exact h

def fileByte (m : Mem) (fs : FsInfo) (inode k : Nat) : UInt8 :=
  m (fs.dataBlockBegin + dataIndex m fs inode (k / blockSize) * blockSize + k % blockSize)

def SameImage (fs : FsInfo) (m m' : Mem) : Prop := AgreeOn fs.bootblkAddr (imageEnd fs) m m'

/-- A buffer that does not overlap the image. -/
def Outside (fs : FsInfo) (buf n : Nat) : Prop := buf + n ≤ fs.bootblkAddr ∨ imageEnd fs ≤ buf

theorem sameImage_fill {fs : FsInfo} {buf n : Nat} (h : Outside fs buf n) (m : Mem)
    (f : Nat → UInt8) : SameImage fs (fill m buf f n) m := agreeOn_fill m buf f h

theorem inodeAddr_eq {fs : FsInfo} (hm : Mounted fs) {inode : Nat} (hi : inode < fs.inodeNumLoc) :
    inodeAddr fs inode = fs.bootblkAddr + blockSize * (1 + inode) := by
  have hs := hm.inodes (by omega)
  have hf := hm.fits
  simp only [inodeAddr, wrap, imageEnd, blockSize] at hs hf ⊢
  omega

/-- The entries of an inode are in the image, and the word behind the last one is too if there is
a data block. -/
theorem dataIndex_next_congr {fs : FsInfo} (hm : Mounted fs) {inode i : Nat} {m m' : Mem}
    (hi : inode < fs.inodeNumLoc) (hk : i < 1023 ∨ i = 1023 ∧ 0 < fs.dataBlockLoc)
    (h : SameImage fs m m') : dataIndex m fs inode i = dataIndex m' fs inode i := by
  have ha := inodeAddr_eq hm hi
  have hf := hm.fits
  simp only [imageEnd, blockSize] at hf ha
  apply load32_congr h
  · simp only [wrap, ha]
    omega
  · simp only [wrap, ha, imageEnd, blockSize]
    omega

theorem dataIndex_congr {fs : FsInfo} (hm : Mounted fs) {inode i : Nat} {m m' : Mem}
    (hi : inode < fs.inodeNumLoc) (hk : i < 1023) (h : SameImage fs m m') :
    dataIndex m fs inode i = dataIndex m' fs inode i :=
  dataIndex_next_congr hm hi (Or.inl hk) h

theorem dataLength_congr {fs : FsInfo} (hm : Mounted fs) {inode : Nat} {m m' : Mem}
    (hi : inode < fs.inodeNumLoc) (h : SameImage fs m m') :
    dataLength m fs inode = dataLength m' fs inode := by
  have ha := inodeAddr_eq hm hi
  have hf := hm.fits
  apply load32_congr h
  · omega
  · simp only [imageEnd, blockSize] at hf ha ⊢
    omega

def GoodBlock (m : Mem) (fs : FsInfo) (inode i : Nat) : Prop :=
  i < 1023 ∧ dataIndex m fs inode i < fs.dataBlockLoc

theorem goodBlock_congr {fs : FsInfo} (hm : Mounted fs) {inode i : Nat} {m m' : Mem}
    (hi : inode < fs.inodeNumLoc) (h : SameImage fs m m') :
    GoodBlock m fs inode i ↔ GoodBlock m' fs inode i := by
  constructor
  · rintro ⟨hk, hd⟩
    exact ⟨hk, dataIndex_congr hm hi hk h ▸ hd⟩
  · rintro ⟨hk, hd⟩
    exact ⟨hk, (dataIndex_congr hm hi hk h).symm ▸ hd⟩

theorem fileByte_congr {fs : FsInfo} (hm : Mounted fs) {inode k : Nat} {m m' : Mem}
    (hi : inode < fs.inodeNumLoc) (hk : GoodBlock m fs inode (k / blockSize))
    (h : SameImage fs m m') : fileByte m fs inode k = fileByte m' fs inode k := by
  have hd := hk.2
  have hb := hm.blocks (by omega)
  have hr := Nat.mod_lt k (show blockSize > 0 by decide)
  simp only [fileByte, ← dataIndex_congr hm hi hk.1 h]
  apply h
  · omega
  · simp only [imageEnd, blockSize] at hb hd hr ⊢
    omega

theorem fileByte_in_block (m : Mem) (fs : FsInfo) (inode : Nat) {offset j : Nat}
    (h : offset % blockSize + j < blockSize) :
    fileByte m fs inode (offset + j) = m (fs.dataBlockBegin +
      dataIndex m fs inode (offset / blockSize) * blockSize + offset % blockSize + j) := by
  have hq : (offset + j) / blockSize = offset / blockSize := by
    simp only [blockSize] at h ⊢
    omega
  have hr : (offset + j) % blockSize = offset % blockSize + j := by
    simp only [blockSize] at h ⊢
    omega
  rw [fileByte, hq, hr, Nat.add_assoc _ (offset % blockSize)]

theorem chunk_eq {fs : FsInfo} (hm : Mounted fs) {inode offset buf n : Nat} {m : Mem}
    (hn : offset % blockSize + n ≤ blockSize)
    (hk : dataIndex m fs inode (offset / blockSize) < fs.dataBlockLoc) :
    memmove m buf (wrap (fs.dataBlockBegin +
      dataIndex m fs inode (offset / blockSize) * blockSize + offset % blockSize)) n =
      fill m buf (fun j => fileByte m fs inode (offset + j)) n := by
  have hb := hm.blocks (by omega)
  have hf := hm.fits
  have hr := Nat.mod_lt offset (show blockSize > 0 by decide)
  have hw : wrap (fs.dataBlockBegin + dataIndex m fs inode (offset / blockSize) * blockSize +
      offset % blockSize) = fs.dataBlockBegin +
      dataIndex m fs inode (offset / blockSize) * blockSize + offset % blockSize := by
    apply Nat.mod_eq_of_lt
    simp only [imageEnd, blockSize] at hb hf hk hr ⊢
    omega
  rw [memmove_eq_fill, hw]
  apply fill_congr
  intro j hj
  exact (fileByte_in_block m fs inode (by omega)).symm

/-- What is left to do before a turn of the block loop: either the block number is that of
the next byte, or nothing is left and the loop is past the last block. -/
def LoopPosition (i offset length : Nat) : Prop :=
  i = offset / blockSize ∨ length = 0 ∧ (offset + length) / blockSize < i

theorem wrap_of_lt {n : Nat} (h : n < 4294967296) : wrap n = n := Nat.mod_eq_of_lt h

theorem wrap_sub {n k : Nat} (h : n < 4294967296) (hk : k ≤ n) : wrap (n + 4294967296 - k) = n - k := by
  simp only [wrap]
  omega

theorem chunk_position {i offset length n : Nat} (hpos : LoopPosition i offset length)
    (hguard : i ≤ (offset + length) / blockSize)
    (hn : n = if offset % blockSize + length < blockSize then length
      else blockSize - offset % blockSize) :
    i = offset / blockSize ∧ n ≤ length ∧ offset % blockSize + n ≤ blockSize ∧
      LoopPosition (i + 1) (offset + n) (length - n) := by
  by_cases h : offset % blockSize + length < blockSize
  · rw [if_pos h] at hn
    simp only [LoopPosition, blockSize] at hpos hguard h ⊢
    omega
  · rw [if_neg h] at hn
    simp only [LoopPosition, blockSize] at hpos hguard hn h ⊢
    omega

/-- The bound on the number of turns never ends the loop: the test fails first. -/
theorem readLoop_bound (fs : FsInfo) (inode : Nat) {fuel i : Nat} (h : blockBound ≤ i + fuel)
    (extra offset buf length read : Nat) (m : Mem) :
    readLoop fs inode (fuel + extra) i offset buf length read m =
      readLoop fs inode fuel i offset buf length read m := by
  induction fuel generalizing i offset buf length read m with
  | zero =>
    have hq : ¬ i ≤ wrap (offset + length) / blockSize := by
      simp only [wrap, blockSize, blockBound] at h ⊢
      omega
    cases extra with
    | zero => rfl
    | succ extra => simp only [readLoop, if_neg hq]
  | succ fuel ih =>
    rw [Nat.succ_add, readLoop, readLoop]
    by_cases hg : i ≤ wrap (offset + length) / blockSize
    · rw [if_pos hg, if_pos hg]
      by_cases hb : fs.dataBlockLoc ≤ dataIndex m fs inode i
      · rw [if_pos hb, if_pos hb]
      · rw [if_neg hb, if_neg hb, ih (by omega)]
    · rw [if_neg hg, if_neg hg]

/-- A chunk and what the loop copies after it make one copy. The buffer pointer does not
matter when nothing is left. -/
theorem fill_chunk {fs : FsInfo} (hm : Mounted fs) {inode : Nat} (hi : inode < fs.inodeNumLoc)
    {offset buf b length n : Nat} {m : Mem} (hnl : n ≤ length) (hb : b = buf + n ∨ length - n = 0)
    (hgood : ∀ k, offset / blockSize ≤ k → k * blockSize < offset + length →
      GoodBlock m fs inode k)
    (hout : Outside fs buf n) :
    fill (fill m buf (fun j => fileByte m fs inode (offset + j)) n) b
      (fun j => fileByte (fill m buf (fun j => fileByte m fs inode (offset + j)) n) fs inode
        (offset + n + j)) (length - n) =
      fill m buf (fun j => fileByte m fs inode (offset + j)) length := by
  have hsame := sameImage_fill hout m (fun j => fileByte m fs inode (offset + j))
  obtain rfl | h0 := hb
  · have hlen : n + (length - n) = length := by omega
    have hrest : (fun j => fileByte m fs inode (offset + (n + j))) =
        fun j => fileByte m fs inode (offset + n + j) := by
      funext j
      rw [Nat.add_assoc]
    rw [← hlen, ← fill_append m buf _ n (length - n), hlen, hrest]
    apply fill_congr
    intro j hj
    refine fileByte_congr hm hi ?_ hsame
    rw [goodBlock_congr hm hi hsame]
    apply hgood
    · exact Nat.div_le_div_right (by omega)
    · have := Nat.div_mul_le_self (offset + n + j) blockSize
      omega
  · have hlen : n = length := by omega
    rw [h0, hlen, fill_zero]

theorem readLoop_done (fs : FsInfo) (inode : Nat) {fuel i offset : Nat} (buf read : Nat) (m : Mem)
    (hoff : offset < 4294967296) (hpast : offset / blockSize < i) :
    readLoop fs inode fuel i offset buf 0 read m = (s32 read, m) := by
  cases fuel with
  | zero => rfl
  | succ fuel =>
    rw [readLoop, if_neg]
    rw [Nat.add_zero, wrap_of_lt hoff]
    omega

theorem readLoop_edge (fs : FsInfo) (inode : Nat) {fuel i offset : Nat} (buf read : Nat) (m : Mem)
    (hoff : offset < 4294967296) (hread : read < 4294967296) (hi : i = offset / blockSize) :
    readLoop fs inode (fuel + 1) i offset buf 0 read m =
      (if fs.dataBlockLoc ≤ dataIndex m fs inode i then -1 else s32 read, m) := by
  have hr := Nat.mod_lt offset (show blockSize > 0 by decide)
  have hle := Nat.mod_le offset blockSize
  rw [readLoop, Nat.add_zero, Nat.add_zero, wrap_of_lt hoff, if_pos (by omega),
    wrap_of_lt (show offset % blockSize < _ by omega), if_pos hr]
  dsimp only
  by_cases hbad : fs.dataBlockLoc ≤ dataIndex m fs inode i
  · rw [if_pos hbad, if_pos hbad]
  · rw [if_neg hbad, if_neg hbad, memmove_eq_fill, fill_zero, wrap_sub (by omega) (by omega)]
    simp only [Nat.add_zero, wrap_of_lt hoff, wrap_of_lt hread]
    exact readLoop_done fs inode _ read m hoff (by omega)

/-- The rest of a buffer. One that ends at the top of memory leaves nothing for the pointer that
has wrapped around. -/
theorem wrap_rest {buf length n : Nat} (hbuf : buf + length ≤ 4294967296) (hn : n ≤ length) :
    wrap (buf + n) = buf + n ∨ length - n = 0 ∧ wrap (buf + n) = 0 := by
  simp only [wrap]
  omega

theorem outside_rest {fs : FsInfo} {buf length n : Nat} (hbuf : buf + length ≤ 4294967296)
    (hout : Outside fs buf length) (hn : n ≤ length) :
    Outside fs buf n ∧ wrap (buf + n) + (length - n) ≤ 4294967296 ∧
      Outside fs (wrap (buf + n)) (length - n) := by
  have hwrap := wrap_rest hbuf hn
  simp only [Outside] at hout ⊢
  omega

theorem readLoop_turn {fs : FsInfo} (hm : Mounted fs) {inode i offset length read : Nat}
    (fuel buf : Nat) {m : Mem} (hpos : LoopPosition i offset length)
    (hsum : offset + length < 4294967296) (hread : read + length < 4294967296)
    (hg : i ≤ (offset + length) / blockSize) (hgood : dataIndex m fs inode i < fs.dataBlockLoc) :
    ∃ n, n ≤ length ∧ LoopPosition (i + 1) (offset + n) (length - n) ∧
      readLoop fs inode (fuel + 1) i offset buf length read m =
        readLoop fs inode fuel (i + 1) (offset + n) (wrap (buf + n)) (length - n) (read + n)
          (fill m buf (fun j => fileByte m fs inode (offset + j)) n) := by
  have hr := Nat.mod_le offset blockSize
  rw [readLoop, wrap_of_lt hsum, if_pos hg, if_neg (Nat.not_le.mpr hgood), wrap_of_lt (by omega)]
  generalize hn : (if offset % blockSize + length < blockSize then length
    else blockSize - offset % blockSize) = n
  obtain ⟨rfl, hnl, hnb, hpos'⟩ := chunk_position hpos hg hn.symm
  dsimp only
  rw [chunk_eq hm hnb hgood, wrap_of_lt (show offset + n < _ by omega), wrap_sub (by omega) hnl,
    wrap_of_lt (show read + n < _ by omega)]
  exact ⟨n, hnl, hpos', rfl⟩

theorem lookup_congr {fs : FsInfo} (hm : Mounted fs) {inode i last : Nat} {m m' : Mem}
    (hi : inode < fs.inodeNumLoc) (hle : i ≤ last)
    (hgood : ∀ k, i ≤ k → k < last → GoodBlock m fs inode k)
    (hfirst : dataIndex m fs inode i < fs.dataBlockLoc) (h : SameImage fs m' m) :
    i + 1 ≤ last ∧ fs.dataBlockLoc ≤ dataIndex m' fs inode last ↔
      i ≤ last ∧ fs.dataBlockLoc ≤ dataIndex m fs inode last := by
  obtain hmore | rfl := Nat.lt_or_eq_of_le hle
  · have hbefore := (hgood (last - 1) (by omega) (by omega)).1
    rw [dataIndex_next_congr hm hi (by omega) h]
    omega
  · exact iff_of_false (fun hn => absurd hn.1 (by omega))
      (fun hn => absurd hn.2 (Nat.not_le.mpr hfirst))

/-- What the loop delivers from any of its turns on, if the blocks of the request are good. The
block behind a request that ends on the edge of a block is tested too. -/
theorem readLoop_result {fs : FsInfo} (hm : Mounted fs) {inode : Nat} (hi : inode < fs.inodeNumLoc)
    {fuel i offset buf length read : Nat} {m : Mem}
    (hpos : LoopPosition i offset length) (hfuel : (offset + length) / blockSize + 1 ≤ i + fuel)
    (hsum : offset + length < 4294967296) (hbuf : buf + length ≤ 4294967296)
    (hread : read + length < 4294967296)
    (hgood : ∀ k, i ≤ k → k * blockSize < offset + length → GoodBlock m fs inode k)
    (hout : Outside fs buf length) :
    readLoop fs inode fuel i offset buf length read m =
      (if i ≤ (offset + length) / blockSize ∧
          fs.dataBlockLoc ≤ dataIndex m fs inode ((offset + length) / blockSize) then -1
        else s32 (read + length), fill m buf (fun j => fileByte m fs inode (offset + j)) length) := by
  induction fuel generalizing i offset buf length read m with
  | zero =>
    have hl : length = 0 := by
      obtain h | h := hpos
      · simp only [blockSize] at h hfuel
        omega
      · exact h.1
    subst hl
    rw [readLoop, if_neg (by omega), fill_zero, Nat.add_zero]
  | succ fuel ih =>
    by_cases hlast : i * blockSize < offset + length
    · have hg : i ≤ (offset + length) / blockSize :=
        (Nat.le_div_iff_mul_le (by decide)).mpr (by omega)
      have hgi := hgood i le_rfl hlast
      obtain ⟨n, hnl, hpos', hturn⟩ := readLoop_turn hm fuel buf hpos hsum hread hg hgi.2
      obtain ⟨hout', hbuf', hrest⟩ := outside_rest hbuf hout hnl
      have hsame := sameImage_fill hout' m (fun j => fileByte m fs inode (offset + j))
      have hend : offset + n + (length - n) = offset + length := by omega
      have htotal : read + n + (length - n) = read + length := by omega
      have hgood' : ∀ k, i + 1 ≤ k → k * blockSize < offset + n + (length - n) →
          GoodBlock (fill m buf (fun j => fileByte m fs inode (offset + j)) n) fs inode k := by
        intro k hik hk
        rw [hend] at hk
        exact (goodBlock_congr hm hi hsame).mpr (hgood k (by omega) hk)
      have hlookup := lookup_congr hm hi hg (fun k hk hlt => hgood k hk
        (Nat.lt_of_lt_of_le (Nat.mul_lt_mul_of_pos_right hlt (by decide))
          (Nat.div_mul_le_self (offset + length) blockSize))) hgi.2 hsame
      have hblocks : ∀ k, offset / blockSize ≤ k → k * blockSize < offset + length →
          GoodBlock m fs inode k := by
        obtain rfl | hdone := hpos
        · exact hgood
        · omega
      rw [hturn, ih hpos' (by rw [hend]; omega) (by omega) hbuf' (by omega) hgood' hrest,
        fill_chunk hm hi hnl ((wrap_rest hbuf hnl).imp_right And.left) hblocks hout', hend, htotal]
      simp only [hlookup]
    · have hl : length = 0 := by
        obtain h | h := hpos
        · have := Nat.div_mul_le_self offset blockSize
          have := Nat.mod_lt offset (show blockSize > 0 by decide)
          simp only [blockSize] at h hlast
          omega
        · exact h.1
      subst hl
      simp only [fill_zero, Nat.add_zero] at hpos hsum hread ⊢
      obtain h | h := hpos
      · subst h
        rw [readLoop_edge fs inode buf read m hsum hread rfl]
        simp only [le_rfl, true_and]
      · rw [if_neg (fun hle => absurd h.2 (Nat.not_lt.mpr hle.1))]
        exact readLoop_done fs inode buf read m hsum h.2

def readCount (m : Mem) (fs : FsInfo) (inode offset length : Nat) : Nat :=
  min length (dataLength m fs inode - offset)

theorem readData_result {fs : FsInfo} (hm : Mounted fs) {inode offset buf length : Nat} {m : Mem}
    (hi : inode < fs.inodeNumLoc) (hsum : offset + length < 4294967296)
    (hbuf : buf + readCount m fs inode offset length ≤ 4294967296)
    (hlen : dataLength m fs inode < 2147483648)
    (hgood : ∀ k, k * blockSize < dataLength m fs inode → GoodBlock m fs inode k)
    (hout : Outside fs buf (readCount m fs inode offset length)) :
    readData m fs inode offset buf length =
      (if offset < dataLength m fs inode ∧ fs.dataBlockLoc ≤
          dataIndex m fs inode ((offset + readCount m fs inode offset length) / blockSize) then -1
        else ((readCount m fs inode offset length : Nat) : Int),
        fill m buf (fun j => fileByte m fs inode (offset + j))
          (readCount m fs inode offset length)) := by
  by_cases hoff : dataLength m fs inode ≤ offset
  · have h0 : readCount m fs inode offset length = 0 := by
      rw [readCount]
      omega
    rw [readData, if_pos hoff, h0, if_neg (fun h => absurd h.1 (Nat.not_lt.mpr hoff)), fill_zero]
    rfl
  · have hcount : (if dataLength m fs inode ≤ offset + length then dataLength m fs inode - offset
        else length) = readCount m fs inode offset length := by
      rw [readCount]
      split <;> omega
    have hle : offset + readCount m fs inode offset length ≤ dataLength m fs inode ∧
        readCount m fs inode offset length ≤ length := by
      rw [readCount]
      omega
    rw [readData, if_neg hoff, if_neg (by omega), wrap_of_lt hsum]
    simp only [hcount]
    generalize readCount m fs inode offset length = count at *
    have hs : s32 (0 + count) = (count : Int) := by
      simp only [s32]
      rw [if_pos (by omega)]
      omega
    rw [readLoop_result hm hi (Or.inl rfl) ?_ (by omega) hbuf (by omega) ?_ hout, hs]
    · simp only [Nat.div_le_div_right (Nat.le_add_right offset count), true_and,
        Nat.lt_of_not_le hoff]
    · simp only [blockBound, blockSize]
      omega
    · intro k _ hk
      exact hgood k (by omega)

/-- `read_data` delivers the bytes from `offset` to the end of the request or of the file,
whichever comes first, and changes nothing else. -/
theorem readData_eq {fs : FsInfo} (hm : Mounted fs) {inode offset buf length : Nat} {m : Mem}
    (hi : inode < fs.inodeNumLoc) (hsum : offset + length < 4294967296)
    (hbuf : buf + length ≤ 4294967296) (hlen : dataLength m fs inode < 2147483648)
    (hgood : ∀ k, k ≤ dataLength m fs inode / blockSize → GoodBlock m fs inode k)
    (hout : Outside fs buf length) :
    readData m fs inode offset buf length =
      (((min length (dataLength m fs inode - offset) : Nat) : Int),
        fill m buf (fun j => fileByte m fs inode (offset + j))
          (min length (dataLength m fs inode - offset))) := by
  have hle : readCount m fs inode offset length ≤ length := Nat.min_le_left _ _
  have hin : ∀ k, k * blockSize < dataLength m fs inode → GoodBlock m fs inode k :=
    fun k hk => hgood k ((Nat.le_div_iff_mul_le (by decide)).mpr (Nat.le_of_lt hk))
  have hout' : Outside fs buf (readCount m fs inode offset length) := by
    simp only [Outside] at hout ⊢
    omega
  rw [readData_result hm hi hsum (by omega) hlen hin hout', if_neg]
  · rfl
  · rintro ⟨hoff, hbad⟩
    refine absurd (hgood _ (Nat.div_le_div_right ?_)).2 (Nat.not_lt.mpr hbad)
    rw [readCount]
    omega

end RedstoneOS.ReadData
