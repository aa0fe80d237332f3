import RedstoneOS.KernelRuns
import RedstoneOS.ReadData

namespace RedstoneOS.ExecuteChecks

open KernelState Lib Library.ByteMemory Library.Runs Filesystem ReadData Execute KernelRuns

variable {sys : System} {inode : Nat}

/-- A file that holds at least the four magic bytes is recognised by them, whatever the check
array held before. -/
theorem isElf_eq (hm : Mounted sys.fs) (hi : inode < sys.fs.inodeNumLoc)
    (hfour : 4 ≤ dataLength sys.mem sys.fs inode)
    (hlen : dataLength sys.mem sys.fs inode < 2147483648)
    (hgood : ∀ k, k ≤ dataLength sys.mem sys.fs inode / blockSize →
      GoodBlock sys.mem sys.fs inode k)
    (hbuf : sys.elfCheckBytes + 4 ≤ 4294967296) (hout : Outside sys.fs sys.elfCheckBytes 4)
    (uninit : Nat → UInt8) :
    isElf sys inode uninit = decide (fileByte sys.mem sys.fs inode 0 = 0x7f ∧
      fileByte sys.mem sys.fs inode 1 = 0x45 ∧ fileByte sys.mem sys.fs inode 2 = 0x4c ∧
      fileByte sys.mem sys.fs inode 3 = 0x46) := by
  have hsame := sameImage_fill hout sys.mem uninit
  have hl := dataLength_congr hm hi hsame
  have hgood' : ∀ k, k ≤ dataLength sys.mem sys.fs inode / blockSize →
      GoodBlock (fill sys.mem sys.elfCheckBytes uninit 4) sys.fs inode k :=
    fun k hk => (goodBlock_congr hm hi hsame).mpr (hgood k hk)
  have hr := readData_eq (m := fill sys.mem sys.elfCheckBytes uninit 4) hm hi
    (show 0 + 4 < 4294967296 by omega) hbuf (by rw [hl]; exact hlen) (by rw [hl]; exact hgood') hout
  have hcount : min 4 (dataLength sys.mem sys.fs inode - 0) = 4 := by omega
  rw [hl, hcount] at hr
  have hbyte : ∀ j, j < 4 → fill (fill sys.mem sys.elfCheckBytes uninit 4) sys.elfCheckBytes
      (fun j => fileByte (fill sys.mem sys.elfCheckBytes uninit 4) sys.fs inode (0 + j)) 4
      (sys.elfCheckBytes + j) = fileByte sys.mem sys.fs inode j := by
    intro j hj
    rw [fill_inside _ _ _ hj, Nat.zero_add]
    refine fileByte_congr hm hi (hgood' _ ?_) hsame
    simp only [blockSize]
    omega
  have h0 := hbyte 0 (by omega)
  rw [Nat.add_zero] at h0
  simp only [isElf, hr, h0, hbyte 1 (by omega), hbyte 2 (by omega), hbyte 3 (by omega)]
  simp

theorem args_of_executeChecks {command : List UInt8} {uninit : Nat → UInt8} {prog : Program}
    (h : executeChecks sys (some command) uninit = some prog) :
    prog.args = commandArgs command := by
  rw [executeChecks] at h
  split at h
  · cases h
  · split at h
    · cases h
    · split at h
      · cases h
      · cases hname : readDentryByName sys.mem sys.fs (byteAt (commandName command)) with
        | none => simp [hname] at h
        | some temp =>
          simp only [hname] at h
          split at h
          · rw [← Option.some.inj h]
          · cases h

theorem shellLoads_of_file {temp : Dentry}
    (hfirst : ¬ (byteAt sys.shell 0 = 0 ∨ byteAt sys.shell 0 = 32))
    (hname : (commandName sys.shell).length ≤ bufLen)
    (hargs : (commandArgs sys.shell).length ≤ bufLen)
    (hfile : readDentryByName sys.mem sys.fs (byteAt (commandName sys.shell)) = some temp)
    (helf : ∀ uninit, isElf sys temp.inodeNum uninit = true) : ShellLoads sys := by
  intro uninit
  refine ⟨⟨temp.inodeNum, commandArgs sys.shell⟩, ?_⟩
  simp only [executeChecks, if_neg hfirst, if_neg (Nat.not_lt.mpr hname),
    if_neg (Nat.not_lt.mpr hargs), hfile, helf uninit, if_true]

def tinyBytes : List (Nat × UInt8) :=
  [(0x400000, 2), (0x400004, 1), (0x400008, 1),
    (0x400040, 46), (0x400060, 1),
    (0x400080, 115), (0x400081, 104), (0x400082, 101), (0x400083, 108), (0x400084, 108),
    (0x4000a0, 2),
    (0x401000, 40),
    (0x402000, 0x7f), (0x402001, 0x45), (0x402002, 0x4c), (0x402003, 0x46)]

def tinyMem : Mem := fun a => (tinyBytes.lookup a).getD 0

def tinySystem : System := ⟨tinyMem, 0x400000, [115, 104, 101, 108, 108], 0x7ff000⟩

theorem tinySystem_mounted : Mounted tinySystem.fs := mounted_fsInit _ _ (by decide)

theorem tinySystem_shellLoads : ShellLoads tinySystem := by
  have hgood : ∀ k, k ≤ dataLength tinySystem.mem tinySystem.fs 0 / blockSize →
      GoodBlock tinySystem.mem tinySystem.fs 0 k := by
    intro k hk
    have hl : dataLength tinySystem.mem tinySystem.fs 0 / blockSize = 0 := by decide
    rw [hl, Nat.le_zero] at hk
    subst hk
    exact ⟨by decide, by decide⟩
  have hfile : readDentryByName tinySystem.mem tinySystem.fs (byteAt (commandName tinySystem.shell)) =
      some ⟨2, 0⟩ := by decide
  refine shellLoads_of_file (by decide) (by decide) (by decide) hfile fun uninit => ?_
  rw [isElf_eq tinySystem_mounted (by decide) (by decide) (by decide) hgood (by decide)
    (Or.inr (by decide))]
  decide

def tinyKernel : Kernel where
  pid := 0
  globalReturnStatus := 0
  processState := fun _ => 0
  terminalProcessInfo := fun _ => 0
  currentTerminalId := 0
  nextScheTerminal := 0
  scheReady := 0
  terminalId := 0
  currProcess := 0
  pdArray := fun _ => 0
  kernelPageTable := fun _ => 0
  tss := ⟨0, 0⟩
  pcbs := fun _ => ⟨fun _ => ⟨none, 0, 0, 0⟩, 0, [], 0, 0, 0, 0, .unset, 0, 0, 0, 0⟩

def tinyTrap : Trap := ⟨100, by decide, 7, fun _ => 9⟩

def tinyTick : Event := .tick tinyTrap tinyTrap

def tinyExecute : Event := .execute (some tinySystem.shell) tinyTrap

def tinyInitial : Machine := initial tinyKernel fun _ => ⟨⟨-1, 0⟩, none⟩

def tinyBoot : Machine := run (step tinySystem) tinyInitial [tinyTick, tinyTick, tinyTick]

theorem tinyBoot_bootShells : BootShells tinySystem tinyBoot :=
  ⟨_, _, _, _, _, _, _, _, rfl⟩

end RedstoneOS.ExecuteChecks
