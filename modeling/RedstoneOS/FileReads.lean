import RedstoneOS.ExecuteChecks

namespace RedstoneOS.FileReads

open Lib Library.ByteMemory Filesystem ReadData Execute ExecuteChecks

variable {fs : FsInfo} {m : Mem} {inode offset buf length : Nat}

/-- A file of at most 1023 blocks whose own entries name data blocks. Nothing is said of the
entries behind them. -/
structure StoredFile (m : Mem) (fs : FsInfo) (inode : Nat) : Prop where
  stored : inode < fs.inodeNumLoc
  bounded : dataLength m fs inode ≤ 1023 * blockSize
  blocks : ∀ i, i < (dataLength m fs inode + blockSize - 1) / blockSize →
    dataIndex m fs inode i < fs.dataBlockLoc

/-- The call returns the number of bytes that there are, which is 0 from the end of the file on,
and copies just these bytes. -/
def Delivers (m : Mem) (fs : FsInfo) (inode offset buf length : Nat) : Prop :=
  readData m fs inode offset buf length =
    (((min length (dataLength m fs inode - offset) : Nat) : Int),
      fill m buf (fun j => fileByte m fs inode (offset + j))
        (min length (dataLength m fs inode - offset)))

/-- The request goes to the end of a file of full blocks, and the entry behind the file's own
names no data block. -/
def EdgeRefused (m : Mem) (fs : FsInfo) (inode offset length : Nat) : Prop :=
  offset < dataLength m fs inode ∧ dataLength m fs inode ≤ offset + length ∧
    dataLength m fs inode % blockSize = 0 ∧
    fs.dataBlockLoc ≤ dataIndex m fs inode (dataLength m fs inode / blockSize)

theorem StoredFile.goodBlock (h : StoredFile m fs inode) {k : Nat}
    (hk : k * blockSize < dataLength m fs inode) : GoodBlock m fs inode k := by
  have hb := h.bounded
  refine ⟨?_, h.blocks k ?_⟩
  · simp only [blockSize] at hk hb
    omega
  · simp only [blockSize] at hk ⊢
    omega

/-- The block that the last turn of the loop tests is refused only behind the end of the file. -/
theorem refused_iff (h : StoredFile m fs inode) :
    (offset < dataLength m fs inode ∧ fs.dataBlockLoc ≤
      dataIndex m fs inode ((offset + readCount m fs inode offset length) / blockSize)) ↔
      EdgeRefused m fs inode offset length := by
  have hgood : ∀ k, k * blockSize < dataLength m fs inode → ¬ fs.dataBlockLoc ≤
      dataIndex m fs inode k := fun k hk => Nat.not_le.mpr (h.goodBlock hk).2
  have hfloor := Nat.div_mul_le_self (offset + readCount m fs inode offset length) blockSize
  rw [EdgeRefused]
  refine and_congr_right fun hoff => ?_
  constructor
  · intro hbad
    have hend : offset + readCount m fs inode offset length = dataLength m fs inode := by
      by_contra hne
      refine hgood _ (Nat.lt_of_le_of_lt hfloor ?_) hbad
      rw [readCount] at hne ⊢
      omega
    rw [hend] at hbad hfloor
    refine ⟨?_, ?_, hbad⟩
    · rw [readCount] at hend
      omega
    · by_contra hrest
      refine hgood _ ?_ hbad
      have := Nat.div_add_mod' (dataLength m fs inode) blockSize
      omega
  · rintro ⟨hlong, -, hbad⟩
    have hend : offset + readCount m fs inode offset length = dataLength m fs inode := by
      rw [readCount]
      omega
    rwa [hend]

/-- Reads deliver what the file holds, but for reads to the end of a file of full blocks: these
test one entry too many, and return -1 if it names no data block. -/
theorem read_delivers_iff (hm : Mounted fs) (hfile : StoredFile m fs inode)
    (hsum : offset + length < 4294967296)
    (hbuf : buf + min length (dataLength m fs inode - offset) ≤ 4294967296)
    (hout : Outside fs buf (min length (dataLength m fs inode - offset))) :
    Delivers m fs inode offset buf length ↔ ¬ EdgeRefused m fs inode offset length := by
  have hlen : dataLength m fs inode < 2147483648 := by
    have := hfile.bounded
    simp only [blockSize] at this
    omega
  have hread := readData_result hm hfile.stored hsum hbuf hlen (fun k hk => hfile.goodBlock hk) hout
  rw [Delivers, ← refused_iff hfile, hread]
  split
  next hbad =>
    refine iff_of_false (fun h => ?_) (not_not.mpr hbad)
    have hvalue := congrArg Prod.fst h
    simp only at hvalue
    omega
  next hgood => exact iff_of_true rfl hgood

theorem read_delivers_tiny : Delivers tinySystem.mem tinySystem.fs 0 10 0x10000 100 := by
  have hentries : ∀ i : Fin 1, dataIndex tinySystem.mem tinySystem.fs 0 i <
      tinySystem.fs.dataBlockLoc := by
    decide
  have hfile : StoredFile tinySystem.mem tinySystem.fs 0 :=
    ⟨by decide, by decide, fun i hi => hentries ⟨i, hi⟩⟩
  refine (read_delivers_iff tinySystem_mounted hfile (by decide) (by decide)
    (Or.inl (by decide))).mpr fun hrefused => ?_
  exact absurd hrefused.2.2.1 (by decide)

def fullBlock : System :=
  ⟨fun a => (([(0x400000, 1), (0x400004, 1), (0x400008, 1), (0x401001, 16), (0x401008, 7)] :
      List (Nat × UInt8)).lookup a).getD 0, 0x400000, [], 0x7ff000⟩

/-- The last byte of the file is copied, but the call returns -1. -/
theorem last_byte_refused :
    StoredFile fullBlock.mem fullBlock.fs 0 ∧ ¬ Delivers fullBlock.mem fullBlock.fs 0 4095 0x10000 1 := by
  have hentries : ∀ i : Fin 1, dataIndex fullBlock.mem fullBlock.fs 0 i <
      fullBlock.fs.dataBlockLoc := by
    decide
  have hvalue : (readData fullBlock.mem fullBlock.fs 0 4095 0x10000 1).1 = -1 := by
    decide +kernel
  refine ⟨⟨by decide, by decide, fun i hi => hentries ⟨i, hi⟩⟩, fun h => ?_⟩
  rw [Delivers] at h
  rw [h] at hvalue
  simp only at hvalue
  omega

end RedstoneOS.FileReads
