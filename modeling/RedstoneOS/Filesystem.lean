import RedstoneOS.KernelState
import RedstoneOS.Lib

namespace RedstoneOS.Filesystem

open KernelState Lib Library.ByteMemory

def blockSize : Nat := 4096
def maxFilenameLen : Nat := 32
def maxFdNumber : Int := 8

def wrap (n : Nat) : Nat := n % 4294967296

def s32 (n : Nat) : Int := if n < 2147483648 then n else (n : Int) - 4294967296

structure FsInfo where
  bootblkAddr : Nat
  dataBlockLoc : Nat
  inodeNumLoc : Nat
  fileSize : Nat
  inodeStartNum : Nat
  dataBlockBegin : Nat

def fsInit (m : Mem) (addr : Nat) : FsInfo where
  bootblkAddr := addr
  dataBlockLoc := load32 m (addr + 8)
  inodeNumLoc := load32 m (addr + 4)
  fileSize := load32 m addr
  inodeStartNum := wrap (addr + blockSize)
  dataBlockBegin := wrap (wrap (addr + blockSize) + load32 m (addr + 4) * blockSize)

/-- `bootblk_addr->dir_entry[i]`, whose name comes first, then its type and inode. -/
def dirEntryAddr (fs : FsInfo) (i : Nat) : Nat := fs.bootblkAddr + 64 + 64 * i

def entryFileType (m : Mem) (fs : FsInfo) (i : Nat) : Nat := load32 m (dirEntryAddr fs i + 32)

def entryInodeNum (m : Mem) (fs : FsInfo) (i : Nat) : Nat := load32 m (dirEntryAddr fs i + 36)

structure Dentry where
  fileType : Nat
  inodeNum : Nat
  deriving DecidableEq

/-- `check_flag` narrows the comparison to eight bits. -/
def checkFlag (m : Mem) (fs : FsInfo) (fname : Nat → UInt8) (i : Nat) : Nat :=
  (strncmp fname (fun j => m (dirEntryAddr fs i + j)) (maxFilenameLen - 1) % 256).toNat

def readDentryFrom (m : Mem) (fs : FsInfo) (fname : Nat → UInt8) : Nat → Nat → Option Dentry
  | 0, _ => none
  | n + 1, i =>
    if checkFlag m fs fname i = 0 then some ⟨entryFileType m fs i, entryInodeNum m fs i⟩
    else readDentryFrom m fs fname n (i + 1)

/-- `none` stands for the return value -1, which leaves `*dentry` alone. -/
def readDentryByName (m : Mem) (fs : FsInfo) (fname : Nat → UInt8) : Option Dentry :=
  readDentryFrom m fs fname fs.fileSize 0

def inodeAddr (fs : FsInfo) (inode : Nat) : Nat := wrap (fs.inodeStartNum + inode * blockSize)

def dataLength (m : Mem) (fs : FsInfo) (inode : Nat) : Nat := load32 m (inodeAddr fs inode)

def dataIndex (m : Mem) (fs : FsInfo) (inode i : Nat) : Nat :=
  load32 m (wrap (inodeAddr fs inode + 4 + 4 * i))

/-- The block loop of `read_data`. A bound on the block number never runs out before the
test `i <= (offset + length) / BLOCK_SIZE` fails, for that quotient is below 2^20. -/
def readLoop (fs : FsInfo) (inode : Nat) :
    Nat → (i offset buf length byteAlreadyRead : Nat) → Mem → Int × Mem
  | 0, _, _, _, _, byteAlreadyRead, m => (s32 byteAlreadyRead, m)
  | fuel + 1, i, offset, buf, length, byteAlreadyRead, m =>
    if i ≤ wrap (offset + length) / blockSize then
      let blockIndex := dataIndex m fs inode i
      if fs.dataBlockLoc ≤ blockIndex then (-1, m)
      else
        let n := if wrap (offset % blockSize + length) < blockSize then length
          else blockSize - offset % blockSize
        readLoop fs inode fuel (i + 1) (wrap (offset + n)) (wrap (buf + n))
          (wrap (length + 4294967296 - n)) (wrap (byteAlreadyRead + n))
          (memmove m buf
            (wrap (fs.dataBlockBegin + blockIndex * blockSize + offset % blockSize)) n)
    else (s32 byteAlreadyRead, m)

def blockBound : Nat := 1048577

def readData (m : Mem) (fs : FsInfo) (inode offset buf length : Nat) : Int × Mem :=
  if dataLength m fs inode ≤ offset then (0, m)
  else if fs.inodeNumLoc ≤ inode then (-1, m)
  else
    let length := if dataLength m fs inode ≤ wrap (offset + length)
      then dataLength m fs inode - offset else length
    readLoop fs inode blockBound (offset / blockSize) offset buf length 0 m

def setFilePosition (addr fd : Int) (pos : Nat) (k : Kernel) : Kernel :=
  setPcb addr (setFile fd (fun entry => { entry with filePosition := pos })) k

/-- `dir_read` finds the current process through the global `pid`. -/
def dirRead (fs : FsInfo) (fd : Int) (buf : Nat) (nbytes : Int) (k : Kernel) (m : Mem) :
    Int × Kernel × Mem :=
  let currProcess := pcbAddr k.pid
  let offset := ((k.pcbs currProcess).fileArray fd).filePosition
  let k := setFilePosition currProcess fd (wrap (offset + 1)) k
  if fs.fileSize ≤ wrap (1 + offset) then (0, k, m)
  else if fd ≤ 1 ∨ maxFdNumber ≤ fd then (-1, k, m)
  else
    let dentryName := dirEntryAddr fs offset
    let m := strncpy m buf dentryName (u32 nbytes)
    (s32 (strlen m dentryName), k, m)

/-- `file_read` finds the current process through the global `pid`. -/
def fileRead (fs : FsInfo) (fd : Int) (buf : Nat) (nbytes : Int) (k : Kernel) (m : Mem) :
    Int × Kernel × Mem :=
  let currProcess := pcbAddr k.pid
  if fd ≤ 1 ∨ maxFdNumber ≤ fd then (-1, k, m)
  else
    let entry := (k.pcbs currProcess).fileArray fd
    let (fileLenRead, m) := readData m fs entry.inode entry.filePosition buf (u32 nbytes)
    if fileLenRead ≠ -1 then
      (fileLenRead, setFilePosition currProcess fd
        (u32 (entry.filePosition + fileLenRead)) k, m)
    else (-1, k, m)

end RedstoneOS.Filesystem
