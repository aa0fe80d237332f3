import RedstoneOS.Directory
import RedstoneOS.DentryNames

namespace RedstoneOS.EntryLengths

open KernelState Lib Library.ByteMemory Filesystem Execute ExecuteChecks
open Directory (nameLength entryName NameEnds nameLength_le nameLength_ne nameEnds_of_short
  s32_strlen_iff)
open DentryNames (longName)

variable {m : Mem} {fs : FsInfo} {fd : Int} {buf : Nat} {nbytes : Int} {k : Kernel}

def entryIndex (fd : Int) (k : Kernel) : Nat :=
  ((k.pcbs (pcbAddr k.pid)).fileArray fd).filePosition

structure Reaches (fs : FsInfo) (fd : Int) (k : Kernel) : Prop where
  before : wrap (1 + entryIndex fd k) < fs.fileSize
  above : 1 < fd
  below : fd < maxFdNumber

def Apart (fs : FsInfo) (i buf n : Nat) : Prop :=
  buf + n ≤ dirEntryAddr fs i ∨ dirEntryAddr fs i + 64 ≤ buf

def SameButFields (fs : FsInfo) (i : Nat) (m m' : Mem) : Prop :=
  ∀ a, a < dirEntryAddr fs i + 32 ∨ dirEntryAddr fs i + 40 ≤ a → m' a = m a

/-- The value counts the bytes of the name that reach the buffer, whatever follows the name. -/
structure CountsName (fs : FsInfo) (fd : Int) (buf : Nat) (nbytes : Int) (k : Kernel) (m : Mem) :
    Prop where
  value : (dirRead fs fd buf nbytes k m).1 = min nbytes (nameLength m fs (entryIndex fd k))
  bytes : readBytes (dirRead fs fd buf nbytes k m).2.2 buf
      (min nbytes.toNat (nameLength m fs (entryIndex fd k))) =
    (entryName m fs (entryIndex fd k)).take nbytes.toNat
  independent : ∀ m', SameButFields fs (entryIndex fd k) m m' →
    (dirRead fs fd buf nbytes k m').1 = (dirRead fs fd buf nbytes k m).1

theorem dirRead_reaches (h : Reaches fs fd k) (buf : Nat) (nbytes : Int) (m : Mem) :
    dirRead fs fd buf nbytes k m =
      (s32 (strlen (strncpy m buf (dirEntryAddr fs (entryIndex fd k)) (u32 nbytes))
        (dirEntryAddr fs (entryIndex fd k))),
      setFilePosition (pcbAddr k.pid) fd (wrap (entryIndex fd k + 1)) k,
      strncpy m buf (dirEntryAddr fs (entryIndex fd k)) (u32 nbytes)) := by
  have hbefore := h.before
  have habove := h.above
  have hbelow := h.below
  simp only [entryIndex] at hbefore ⊢
  rw [dirRead, if_neg (by omega), if_neg (by omega)]

theorem strncpy_apart {i n : Nat} (h : Apart fs i buf n) (m : Mem) {j : Nat} (hj : j < 64) :
    strncpy m buf (dirEntryAddr fs i) n (dirEntryAddr fs i + j) = m (dirEntryAddr fs i + j) := by
  simp only [Apart] at h
  exact strncpyFrom_outside buf _ m (by omega)

theorem nameLength_local {m' : Mem} {i : Nat}
    (h : ∀ j, j < maxFilenameLen → m (dirEntryAddr fs i + j) = m' (dirEntryAddr fs i + j)) :
    nameLength m fs i = nameLength m' fs i :=
  strlenFrom_congr _ fun j _ hj => h j (by omega)

theorem value_eq_length_iff (h : Reaches fs fd k) (ha : Apart fs (entryIndex fd k) buf (u32 nbytes))
    (m : Mem) : (dirRead fs fd buf nbytes k m).1 = (nameLength m fs (entryIndex fd k) : Int) ↔
      NameEnds m fs (entryIndex fd k) := by
  have hle := nameLength_le m fs (entryIndex fd k)
  have hlen : nameLength (strncpy m buf (dirEntryAddr fs (entryIndex fd k)) (u32 nbytes)) fs
      (entryIndex fd k) = nameLength m fs (entryIndex fd k) := by
    apply nameLength_local
    intro j hj
    simp only [maxFilenameLen] at hj
    exact strncpy_apart ha m (by omega)
  have hiff := s32_strlen_iff
    (strncpy m buf (dirEntryAddr fs (entryIndex fd k)) (u32 nbytes)) fs (entryIndex fd k)
  simp only [maxFilenameLen] at hle
  rw [NameEnds, hlen, strncpy_apart ha m (by omega)] at hiff
  rw [dirRead_reaches h]
  exact hiff

theorem value_short (h : Reaches fs fd k) (ha : Apart fs (entryIndex fd k) buf (u32 nbytes))
    (hs : nameLength m fs (entryIndex fd k) < maxFilenameLen) :
    (dirRead fs fd buf nbytes k m).1 = (nameLength m fs (entryIndex fd k) : Int) :=
  (value_eq_length_iff h ha m).mpr (nameEnds_of_short hs)

theorem nameLength_sameButFields {m' : Mem} {i : Nat} (h : SameButFields fs i m m') :
    nameLength m' fs i = nameLength m fs i := by
  apply nameLength_local
  intro j hj
  simp only [maxFilenameLen] at hj
  exact h _ (Or.inl (by omega))

theorem full_depends (h : Reaches fs fd k) (ha : Apart fs (entryIndex fd k) buf (u32 nbytes))
    (hf : nameLength m fs (entryIndex fd k) = maxFilenameLen) :
    ∃ m', SameButFields fs (entryIndex fd k) m m' ∧
      (dirRead fs fd buf nbytes k m').1 ≠ (dirRead fs fd buf nbytes k m).1 := by
  let behind := dirEntryAddr fs (entryIndex fd k) + maxFilenameLen
  let m' : Mem := Function.update m behind (if m behind = 0 then 1 else 0)
  have hsame : SameButFields fs (entryIndex fd k) m m' := by
    intro a hout
    exact Function.update_of_ne (by simp only [behind, maxFilenameLen]; omega) _ _
  have hlen := nameLength_sameButFields hsame
  have hiff := value_eq_length_iff h ha m
  have hiff' := value_eq_length_iff h ha m'
  rw [NameEnds, hf] at hiff
  rw [NameEnds, hlen, hf] at hiff'
  have hother : m' behind = 0 ↔ m behind ≠ 0 := by
    rw [show m' behind = if m behind = 0 then 1 else 0 from Function.update_self _ _ _]
    split <;> simp_all
  refine ⟨m', hsame, fun heq => ?_⟩
  rw [heq, hiff] at hiff'
  exact iff_not_self (hiff'.trans hother)

theorem bytes_read (h : Reaches fs fd k) (hn : 0 ≤ nbytes) (hw : nbytes < 2147483648)
    (ha : Apart fs (entryIndex fd k) buf nbytes.toNat) (m : Mem) :
    readBytes (dirRead fs fd buf nbytes k m).2.2 buf
        (min nbytes.toNat (nameLength m fs (entryIndex fd k))) =
      (entryName m fs (entryIndex fd k)).take nbytes.toNat := by
  have hu : u32 nbytes = nbytes.toNat := by
    simp only [u32]
    omega
  have hle := nameLength_le m fs (entryIndex fd k)
  simp only [maxFilenameLen] at hle
  simp only [Apart] at ha
  rw [dirRead_reaches h, hu, entryName, readBytes, readBytes, ← List.map_take, List.take_range]
  apply List.map_congr_left
  intro j hj
  have hlt := List.mem_range.mp hj
  exact strncpyFrom_copies buf _ m
    (k := min nbytes.toNat (nameLength m fs (entryIndex fd k))) (by omega) (by omega)
    (fun l _ hl => nameLength_ne (by omega)) (Nat.zero_le j) hlt

/-- The value is right for the names that are shorter than their field and fit into the
buffer, and for no others. -/
theorem countsName_iff (h : Reaches fs fd k) (hn : 0 ≤ nbytes) (hw : nbytes < 2147483648)
    (ha : Apart fs (entryIndex fd k) buf nbytes.toNat) :
    CountsName fs fd buf nbytes k m ↔ nameLength m fs (entryIndex fd k) < maxFilenameLen ∧
      (nameLength m fs (entryIndex fd k) : Int) ≤ nbytes := by
  have hu : u32 nbytes = nbytes.toNat := by
    simp only [u32]
    omega
  have hau : Apart fs (entryIndex fd k) buf (u32 nbytes) := by rwa [hu]
  constructor
  · intro hc
    have hshort : nameLength m fs (entryIndex fd k) < maxFilenameLen := by
      apply Nat.lt_of_le_of_ne (nameLength_le m fs (entryIndex fd k))
      intro hf
      obtain ⟨m', hsame, hne⟩ := full_depends h hau hf
      exact hne (hc.independent m' hsame)
    have hv := hc.value
    rw [value_short h hau hshort] at hv
    exact ⟨hshort, by omega⟩
  · rintro ⟨hshort, hfit⟩
    refine ⟨?_, bytes_read h hn hw ha m, ?_⟩
    · rw [value_short h hau hshort]
      omega
    · intro m' hsame
      have hlen := nameLength_sameButFields hsame
      rw [value_short h hau hshort, value_short h hau (by rwa [hlen]), hlen]

theorem countsName_iff_tiny : Reaches tinySystem.fs 2 tinyKernel ∧
    (CountsName tinySystem.fs 2 0x8000000 32 tinyKernel tinyMem ↔
      nameLength tinyMem tinySystem.fs 0 < maxFilenameLen ∧
        (nameLength tinyMem tinySystem.fs 0 : Int) ≤ 32) :=
  have hr : Reaches tinySystem.fs 2 tinyKernel := ⟨by decide, by decide, by decide⟩
  ⟨hr, countsName_iff hr (by decide) (by decide) (Or.inr (by decide))⟩

def fullName : Mem := fun a =>
  if a = 0x400000 then 2 else if a = 0x400060 then 2
  else if 0x400040 ≤ a then byteAt longName (a - 0x400040) else 0

/-- A buffer of 32 bytes, and the value is 33: the file type has been counted. -/
theorem full_name_counted : Reaches (fsInit fullName 0x400000) 2 tinyKernel ∧
    nameLength fullName (fsInit fullName 0x400000) (entryIndex 2 tinyKernel) = 32 ∧
    ¬ CountsName (fsInit fullName 0x400000) 2 0x8000000 32 tinyKernel fullName := by
  have hvalue : (dirRead (fsInit fullName 0x400000) 2 0x8000000 32 tinyKernel fullName).1 = 33 := by
    decide +kernel
  have hlen : nameLength fullName (fsInit fullName 0x400000) (entryIndex 2 tinyKernel) = 32 := by
    decide +kernel
  refine ⟨⟨by decide, by decide, by decide⟩, hlen, fun h => ?_⟩
  have hmin := h.value
  rw [hvalue, hlen] at hmin
  exact absurd hmin (by decide)

end RedstoneOS.EntryLengths
