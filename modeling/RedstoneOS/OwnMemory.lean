import RedstoneOS.Library.AddressSpace
import RedstoneOS.MemoryProtection
import RedstoneOS.ImageReads
import RedstoneOS.KernelFrames

namespace RedstoneOS.OwnMemory

open KernelState Lib Filesystem ReadData Execute Schedule ExecuteEffects Syscalls Outcomes
open ExecuteChecks RoundRobin Sessions SessionSteps SessionRuns ContextSwitch Paging MemoryProtection
open SequentialReads ImageReads
open KernelRuns (Machine Suspended initial ShellLoads)
open Library.ByteMemory Library.AddressSpace Library.Runs

def userProgramAddr : Nat := 0x08048000
def userProgramOff : Nat := 0x00048000

/-- What reaches memory: an event of the kernel, which may load a program, a `read`, what another
call copies into a buffer of the process, or a store of the program itself. `vidmap` is only the entry
of the page table; the pointer that the call stores through its argument is a `deliver`. -/
inductive Event
  | kernel (e : KernelRuns.Event)
  | vidmap (arg : Nat)
  | read (fd : Int) (buf : Nat) (nbytes : Int)
  | deliver (buf : Nat) (l : List UInt8)
  | store (va : Nat) (v : UInt8)

/-- The kernel and the physical memory. Of the kernel's own 4MB it holds the file system image; the
rest of them is the kernel's state. -/
structure Computer where
  machine : Machine
  ram : Mem

def seen (k : Kernel) (ram : Mem) : Mem := view (translate k) 0 ram

def stepMachine (sys : System) (m : Machine) (mem : Mem) : Event → Machine
  | .kernel e => RoundRobin.step sys m (.kernel e)
  | .vidmap arg => RoundRobin.step sys m (.vidmap arg)
  | .read fd buf nbytes => RoundRobin.step sys m (.read fd buf nbytes mem)
  | .deliver _ _ => m
  | .store _ _ => m

def starts (sys : System) (m : Machine) (e : KernelRuns.Event) : Option Program :=
  if (KernelRuns.step sys m e).calls = m.calls then none
  else match e with
    | .tick _ x => executeChecks sys (some sys.shell) x.uninit
    | .execute command x => executeChecks sys command x.uninit
    | .halt _ x => executeChecks sys (some sys.shell) x.uninit
    | _ => none

/-- The `read_data` of `execute` that brings the program into the page it has switched to. -/
def loadProgram (sys : System) (k : Kernel) (prog : Program) (ram : Mem) : Mem :=
  storeAll (translate k)
    (readData (seen k ram) sys.fs prog.inodeNum 0 userProgramAddr (fourMb - userProgramOff)).2
    userProgramAddr (fourMb - userProgramOff) ram

def stepRam (sys : System) (s : Computer) : Event → Mem
  | .kernel e =>
    match starts sys s.machine e with
    | none => s.ram
    | some prog => loadProgram sys (KernelRuns.step sys s.machine e).kernel prog s.ram
  | .vidmap _ => s.ram
  | .read fd buf nbytes =>
    match readCall sys fd buf nbytes s.machine.kernel (seen s.machine.kernel s.ram) with
    | none => s.ram
    | some (_, _, mem) => storeAll (translate s.machine.kernel) mem buf nbytes.toNat s.ram
  | .deliver buf l =>
    storeAll (translate s.machine.kernel) (place (seen s.machine.kernel s.ram) buf l) buf l.length
      s.ram
  | .store va v => Library.AddressSpace.store (userTranslate s.machine.kernel) va v s.ram

def step (sys : System) (s : Computer) (e : Event) : Computer :=
  ⟨stepMachine sys s.machine (seen s.machine.kernel s.ram) e, stepRam sys s e⟩

/-- A load of the program that runs; `none` is a page fault. -/
def load (s : Computer) (va : Nat) : Option UInt8 := (userTranslate s.machine.kernel va).map s.ram

/-- What paging is for: every slot has a memory of its own. -/
structure Memories where
  machine : Machine
  own : Int → Mem

def ownSeen (sys : System) (own : Mem) : Mem := fun va => if UserWindow va then own va else sys.mem va

def heapAlias (va : Nat) : Nat := 0x08000000 + (va - 0x800000)

def stepOwn (sys : System) (a : Memories) : Event → Int → Mem
  | .kernel e =>
    match starts sys a.machine e with
    | none => a.own
    | some prog =>
      let p := (KernelRuns.step sys a.machine e).running.slot
      Function.update a.own p (fill (a.own p) userProgramAddr
        (fileByte sys.mem sys.fs prog.inodeNum)
        (min (fourMb - userProgramOff) (dataLength sys.mem sys.fs prog.inodeNum)))
  | .vidmap _ => a.own
  | .read fd buf nbytes =>
    let p := a.machine.running.slot
    match readCall sys fd buf nbytes a.machine.kernel (ownSeen sys (a.own p)) with
    | none => a.own
    | some (_, _, mem) => Function.update a.own p mem
  | .deliver buf l =>
    let p := a.machine.running.slot
    Function.update a.own p (place (a.own p) buf l)
  | .store va v =>
    let p := a.machine.running.slot
    if UserWindow va then Function.update a.own p (Function.update (a.own p) va v)
    else if HeapWindow va then
      Function.update a.own 0 (Function.update (a.own 0) (heapAlias va) v)
    else a.own

def ownStep (sys : System) (a : Memories) (e : Event) : Memories :=
  ⟨stepMachine sys a.machine (ownSeen sys (a.own a.machine.running.slot)) e, stepOwn sys a e⟩

/-- The assumptions about an event: programs are regular files, and the buffers of system calls,
which the kernel does not check, lie in the window of the program. -/
def Fits (sys : System) (s : Computer) : Event → Prop
  | .kernel e => Booted sys s.machine e ∧
      ∀ prog, starts sys s.machine e = some prog → RegularFile sys.mem sys.fs prog.inodeNum
  | .vidmap _ => s.machine.kernel.currentTerminalId ≠ unused
  | .read fd buf nbytes => s.machine.kernel.currentTerminalId ≠ unused ∧ 0 ≤ nbytes ∧
      InWindow buf nbytes.toNat ∧ ImageReads.Readable sys fd nbytes s.machine.kernel
  | .deliver buf l => s.machine.kernel.currentTerminalId ≠ unused ∧ InWindow buf l.length
  | .store va _ => s.machine.kernel.currentTerminalId ≠ unused ∧ va < 4294967296

def frame (p : Int) : Nat := (2 + p).toNat * fourMb

variable {sys : System} {m : Machine} {k : Kernel} {ram : Mem} {s : Computer} {a : Memories}
  {e : Event} {es : List Event} {base : Nat} {ts : List Int}

theorem separate_frames : Separate IsSlot frame (0x08400000 - 0x08000000) := by
  intro p q hp hq hpq
  simp only [IsSlot, frame, fourMb] at *
  omega

/-- The program that runs sees the frame of its slot. -/
theorem mapsTo_window (h : Scheduling m) (hused : m.kernel.currentTerminalId ≠ unused) :
    IsSlot m.running.slot ∧
      MapsTo (translate m.kernel) 0x08000000 0x08400000 (frame m.running.slot) ∧
      MapsTo (userTranslate m.kernel) 0x08000000 0x08400000 (frame m.running.slot) := by
  obtain ⟨hslot, hwindow⟩ := running_window h hused
  have hoffset : ∀ va, UserWindow va → va % fourMb = va - 0x08000000 := by
    intro va hva
    simp only [UserWindow, fourMb] at *
    omega
  refine ⟨hslot, fun va hlo hhi => ?_, fun va hlo hhi => ?_⟩
  · rw [(hwindow va ⟨hlo, hhi⟩).1, hoffset va ⟨hlo, hhi⟩]
    rfl
  · rw [(hwindow va ⟨hlo, hhi⟩).2, hoffset va ⟨hlo, hhi⟩]
    rfl

/-- The image lies in the kernel's own 4MB. -/
def ImageInKernel (sys : System) : Prop := fourMb ≤ sys.bootblk ∧ imageEnd sys.fs ≤ 2 * fourMb

theorem ImageInKernel.mounted (h : ImageInKernel sys) : Mounted sys.fs :=
  mounted_fsInit _ _ (Nat.le_trans h.2 (by decide))

theorem sameImage_seen (himage : ImageInKernel sys) (hdir : KernelDirectory base k)
    (h : SameImage sys.fs ram sys.mem) : SameImage sys.fs (seen k ram) sys.mem := by
  intro x hlo hhi
  have hwindow : KernelWindow x := ⟨Nat.le_trans himage.1 hlo, Nat.lt_of_lt_of_le hhi himage.2⟩
  rw [seen, view, (translate_kernel hdir hwindow).1, Option.map_some, Option.getD_some]
  exact h x hlo hhi

theorem sameImage_ownSeen (himage : ImageInKernel sys) (own : Mem) :
    SameImage sys.fs (ownSeen sys own) sys.mem := by
  intro x _ hhi
  have hout : ¬ UserWindow x := fun h => by
    have hlo := h.1
    have hend := himage.2
    simp only [fourMb] at hend
    omega
  rw [ownSeen, if_neg hout]

theorem outside_of_inWindow (himage : ImageInKernel sys) {buf n : Nat} (h : InWindow buf n) :
    Outside sys.fs buf n := by
  have hlo := h.1
  have hend := himage.2
  simp only [fourMb] at hend
  exact Or.inr (by omega)

theorem sameImage_frame (himage : ImageInKernel sys) {p : Int} (hp : IsSlot p)
    (h : SameImage sys.fs ram sys.mem) (o : Nat) (f : Nat → UInt8) (n : Nat) :
    SameImage sys.fs (fill ram (frame p + o) f n) sys.mem := by
  have hend := himage.2
  refine agreeOn_trans (sameImage_fill (Or.inr ?_) ram f) h
  simp only [IsSlot, frame, fourMb] at *
  omega

/-- The physical memory holds the memories of the slots and the image. -/
structure Refines (sys : System) (base : Nat) (s : Computer) (a : Memories) : Prop where
  machine : a.machine = s.machine
  scheduling : Scheduling s.machine
  tables : ∃ ts, Tables (base * fourKb) ts s.machine
  frames : Holds IsSlot frame 0x08000000 0x08400000 s.ram a.own
  image : SameImage sys.fs s.ram sys.mem

theorem current_after_start (h : Tables (base * fourKb) ts m) {e : KernelRuns.Event}
    (he : Booted sys m e) (hstart : (KernelRuns.step sys m e).calls ≠ m.calls) :
    (KernelRuns.step sys m e).kernel.currentTerminalId ≠ unused := by
  obtain ⟨hproc, -⟩ := he
  cases e with
  | tick t x =>
    obtain ⟨n, hn⟩ := h.turn
    rw [(tick_turn sys t x m).1]
    have hlo := (nextTerminal_range hn).1
    simp only [unused]
    omega
  | switchTerminal target => exact absurd rfl hstart
  | execute command x =>
    rw [(sameTurn_kernelStep rfl).1]
    exact hproc
  | halt status x =>
    rw [(sameTurn_kernelStep rfl).1]
    exact hproc
  | openFile filename => exact absurd rfl hstart
  | closeFile fd => exact absurd rfl hstart

theorem calls_of_starts {e : KernelRuns.Event} {prog : Program} (h : starts sys m e = some prog) :
    (KernelRuns.step sys m e).calls ≠ m.calls := by
  intro hsame
  simp [starts, hsame] at h

theorem loadProgram_eq (hm : Mounted sys.fs) (ram : Mem) {prog : Program} {p : Int}
    (hmap : MapsTo (translate k) 0x08000000 0x08400000 (frame p))
    (hseen : SameImage sys.fs (seen k ram) sys.mem)
    (hout : Outside sys.fs userProgramAddr (fourMb - userProgramOff))
    (hfile : RegularFile sys.mem sys.fs prog.inodeNum) :
    loadProgram sys k prog ram = fill ram (frame p + userProgramOff)
      (fileByte sys.mem sys.fs prog.inodeNum)
      (min (fourMb - userProgramOff) (dataLength sys.mem sys.fs prog.inodeNum)) := by
  have hread := readData_regular hm hfile hseen
    (show 0 + (fourMb - userProgramOff) < 4294967296 by decide) (by decide) hout
  rw [loadProgram, hread]
  simp only [Nat.zero_add, Nat.sub_zero]
  exact hmap.storeAll_fill 0 _ (by decide) (by decide) (min_le_left _ _)

theorem holds_ownSeen (sys : System) {own : Int → Mem}
    (h : Holds IsSlot frame 0x08000000 0x08400000 ram own) (p : Int) : Holds IsSlot frame 0x08000000 0x08400000 ram
      (Function.update own p (ownSeen sys (own p))) := by
  intro q hq va hlo hhi
  rw [h q hq va hlo hhi]
  by_cases hqp : q = p
  · subst hqp
    rw [Function.update_self, ownSeen, if_pos (show UserWindow va from ⟨hlo, hhi⟩)]
  · rw [Function.update_of_ne hqp]

theorem scheduling_stepMachine (hload : ShellLoads sys) (h : Scheduling s.machine)
    (he : Fits sys s e) (mem : Mem) : Scheduling (stepMachine sys s.machine mem e) := by
  cases e with
  | kernel e => exact scheduling_event (e := .kernel e) hload h he.1
  | vidmap arg => exact scheduling_event (e := .vidmap arg) hload h he
  | read fd buf nbytes => exact scheduling_event (e := .read fd buf nbytes mem) hload h ⟨he.1, he.2.1, he.2.2.1⟩
  | deliver buf l => exact h
  | store va v => exact h

theorem tables_stepMachine (h : ∃ ts, Tables (base * fourKb) ts s.machine) (he : Fits sys s e)
    (mem : Mem) : ∃ ts, Tables (base * fourKb) ts (stepMachine sys s.machine mem e) := by
  obtain ⟨ts, hts⟩ := h
  cases e with
  | kernel e => exact ⟨_, tables_step (e := .kernel e) hts trivial⟩
  | vidmap arg =>
    have hnext : Tables _ _ (RoundRobin.step sys s.machine (.vidmap arg)) := tables_step hts he
    exact ⟨_, hnext⟩
  | read fd buf nbytes => exact ⟨_, tables_step (e := .read fd buf nbytes mem) hts ⟨he.2.1, he.2.2.1⟩⟩
  | deliver buf l => exact ⟨ts, hts⟩
  | store va v => exact ⟨ts, hts⟩

/-- What `read` does through the page tables is what it does in the memory of the slot. -/
theorem read_uniform (himage : ImageInKernel sys) {fd : Int} {buf : Nat} {nbytes : Int}
    (he : Fits sys s (.read fd buf nbytes)) :
    (∀ mem, readCall sys fd buf nbytes s.machine.kernel mem = none) ∨
      ∃ value k' g n, n ≤ nbytes.toNat ∧ ∀ mem, SameImage sys.fs mem sys.mem →
        readCall sys fd buf nbytes s.machine.kernel mem = some (value, k', fill mem buf g n) := by
  obtain ⟨-, h0, hbuf, hread⟩ := he
  have hlo := hbuf.1
  have hhi := hbuf.2
  obtain hnone | ⟨f, ⟨value, k', g, n, hn, hf⟩, hsome⟩ := readCall_uniform himage.mounted hread h0
    (by omega) (by omega) (outside_of_inWindow himage hbuf)
  · exact Or.inl hnone
  · refine Or.inr ⟨value, k', g, n, hn, fun mem hmem => ?_⟩
    rw [hsome, hf mem hmem]

/-- Bytes that reach the window of a slot reach its frame, and nothing else. -/
theorem frames_fill (himage : ImageInKernel sys) {own : Int → Mem} {p : Int} (hp : IsSlot p)
    (h : Holds IsSlot frame 0x08000000 0x08400000 ram own)
    (hsame : SameImage sys.fs ram sys.mem) (f : Nat → UInt8) {buf n : Nat} (hbuf : InWindow buf n) :
    Holds IsSlot frame 0x08000000 0x08400000 (fill ram (frame p + (buf - 0x08000000)) f n)
        (Function.update own p (fill (own p) buf f n)) ∧
      SameImage sys.fs (fill ram (frame p + (buf - 0x08000000)) f n) sys.mem :=
  ⟨h.fill separate_frames hp f hbuf.1 hbuf.2, sameImage_frame himage hp hsame _ f n⟩

theorem kernel_refines (hload : ShellLoads sys) (himage : ImageInKernel sys)
    (h : Refines sys base s a) {e : KernelRuns.Event} (he : Fits sys s (.kernel e)) :
    Holds IsSlot frame 0x08000000 0x08400000 (stepRam sys s (.kernel e))
        (stepOwn sys a (.kernel e)) ∧
      SameImage sys.fs (stepRam sys s (.kernel e)) sys.mem := by
  rw [stepRam, stepOwn, h.machine]
  cases hstarts : starts sys s.machine e with
  | none => exact ⟨h.frames, h.image⟩
  | some prog =>
    obtain ⟨ts, htables⟩ := h.tables
    have htables' : Tables _ _ (RoundRobin.step sys s.machine (.kernel e)) :=
      tables_step htables trivial
    have hsched : Scheduling (KernelRuns.step sys s.machine e) :=
      scheduling_event (e := .kernel e) hload h.scheduling he.1
    obtain ⟨hslot, hmap, -⟩ := mapsTo_window hsched
      (current_after_start htables he.1 (calls_of_starts hstarts))
    have hloaded := loadProgram_eq himage.mounted s.ram hmap
      (sameImage_seen himage htables'.directory h.image)
      (outside_of_inWindow himage ⟨by decide, by decide⟩) (he.2 prog hstarts)
    have hroom : InWindow userProgramAddr
        (min (fourMb - userProgramOff) (dataLength sys.mem sys.fs prog.inodeNum)) :=
      ⟨by decide, by simp only [userProgramAddr, fourMb, userProgramOff]; omega⟩
    have hfill := frames_fill himage hslot h.frames h.image
      (fileByte sys.mem sys.fs prog.inodeNum) hroom
    simp only [hloaded]
    exact hfill

theorem deliver_refines (himage : ImageInKernel sys) (h : Refines sys base s a) {buf : Nat}
    {l : List UInt8} (he : Fits sys s (.deliver buf l)) :
    Holds IsSlot frame 0x08000000 0x08400000 (stepRam sys s (.deliver buf l))
        (stepOwn sys a (.deliver buf l)) ∧
      SameImage sys.fs (stepRam sys s (.deliver buf l)) sys.mem := by
  obtain ⟨hslot, hmap, -⟩ := mapsTo_window h.scheduling he.1
  have hplace : ∀ mem : Mem, place mem buf l = fill mem buf (fun i => l.getD i 0) l.length := by
    intro mem
    rw [fill_eq_place, range_map_getD l 0 le_rfl, Nat.sub_self, List.replicate_zero, List.append_nil]
  rw [stepRam, stepOwn, h.machine]
  simp only [hplace, seen]
  rw [hmap.storeAll_fill 0 _ he.2.1 he.2.2 le_rfl]
  exact frames_fill himage hslot h.frames h.image _ he.2

theorem read_refines (himage : ImageInKernel sys) (h : Refines sys base s a) {fd : Int} {buf : Nat}
    {nbytes : Int} (he : Fits sys s (.read fd buf nbytes)) :
    (stepMachine sys a.machine (ownSeen sys (a.own a.machine.running.slot)) (.read fd buf nbytes) =
        stepMachine sys s.machine (seen s.machine.kernel s.ram) (.read fd buf nbytes)) ∧
      Holds IsSlot frame 0x08000000 0x08400000 (stepRam sys s (.read fd buf nbytes))
        (stepOwn sys a (.read fd buf nbytes)) ∧
      SameImage sys.fs (stepRam sys s (.read fd buf nbytes)) sys.mem := by
  obtain ⟨hslot, hmap, -⟩ := mapsTo_window h.scheduling he.1
  obtain ⟨ts, htables⟩ := h.tables
  have hseen := sameImage_seen himage htables.directory h.image
  have hown := sameImage_ownSeen himage (a.own s.machine.running.slot)
  rw [stepMachine, stepMachine, RoundRobin.step, RoundRobin.step, stepRam, stepOwn, h.machine]
  obtain hnone | ⟨value, k', g, n, hn, hread⟩ := read_uniform himage he
  · simp only [hnone]
    exact ⟨trivial, h.frames, h.image⟩
  · have hbuf := he.2.2.1
    have hpart : InWindow buf n := ⟨hbuf.1, by have hhi := hbuf.2; omega⟩
    have hfill := frames_fill himage hslot (holds_ownSeen sys h.frames s.machine.running.slot)
      h.image g hpart
    rw [Function.update_self, Function.update_idem] at hfill
    simp only [hread _ hseen, hread _ hown]
    refine ⟨trivial, ?_⟩
    rw [seen, hmap.storeAll_fill 0 g hbuf.1 hbuf.2 hn]
    exact hfill

theorem heapAlias_place {va : Nat} (hva : HeapWindow va) :
    InWindow (heapAlias va) 1 ∧ frame 0 + (heapAlias va - 0x08000000) = va := by
  obtain ⟨hlo, hhi⟩ := hva
  have hframe : frame 0 = 0x800000 := by simp [frame, fourMb]
  have hlow : 0x08000000 ≤ heapAlias va := Nat.le_add_right _ _
  have hplace : heapAlias va - 0x08000000 = va - 0x800000 := Nat.add_sub_cancel_left _ _
  exact ⟨⟨hlow, by omega⟩, by omega⟩

theorem frame_above {p : Int} (hp : IsSlot p) : 2 * fourMb ≤ frame p := by
  simp only [IsSlot, frame, fourMb] at *
  omega

theorem video_store (himage : ImageInKernel sys) {own : Int → Mem}
    (h : Holds IsSlot frame 0x08000000 0x08400000 ram own) (hsame : SameImage sys.fs ram sys.mem)
    {va : Nat} (hva : va < fourMb) (v : UInt8) :
    Holds IsSlot frame 0x08000000 0x08400000 (Function.update ram va v) own ∧
      SameImage sys.fs (Function.update ram va v) sys.mem := by
  have hlow : fourMb ≤ sys.fs.bootblkAddr := himage.1
  refine ⟨h.outside fun p hp x hx _ => ?_, fun x hx hxe => ?_⟩
  · have hframe := frame_above hp
    exact Function.update_of_ne (by omega) _ _
  · rw [Function.update_of_ne (by omega)]
    exact hsame x hx hxe

theorem store_refines (himage : ImageInKernel sys) (h : Refines sys base s a) {va : Nat} {v : UInt8}
    (he : Fits sys s (.store va v)) :
    Holds IsSlot frame 0x08000000 0x08400000 (stepRam sys s (.store va v))
        (stepOwn sys a (.store va v)) ∧
      SameImage sys.fs (stepRam sys s (.store va v)) sys.mem := by
  obtain ⟨hused, hva⟩ := he
  obtain ⟨hslot, -, hmap⟩ := mapsTo_window h.scheduling hused
  obtain ⟨ts, htables⟩ := h.tables
  rw [stepRam, stepOwn, h.machine]
  by_cases huser : UserWindow va
  · rw [if_pos huser, hmap.store_eq v s.ram huser.1 huser.2, ← fill_one (a.own _) va fun _ => v]
    exact frames_fill himage hslot h.frames h.image _ ⟨huser.1, huser.2⟩
  · have hreach := (translate_outside htables.directory htables.video hva huser).2
    rw [if_neg huser]
    by_cases hheap : HeapWindow va
    · obtain ⟨halias, hplace⟩ := heapAlias_place hheap
      have hfill := frames_fill himage (show IsSlot 0 by decide) h.frames h.image (fun _ => v) halias
      rw [hplace, fill_one, fill_one] at hfill
      rw [if_pos hheap, Library.AddressSpace.store, hreach, if_pos (Or.inl hheap)]
      exact hfill
    · rw [if_neg hheap, Library.AddressSpace.store, hreach]
      by_cases hvideo : VideoWindow ts va
      · rw [if_pos (Or.inr hvideo)]
        exact video_store himage h.frames h.image hvideo.1 v
      · rw [if_neg (not_or.mpr ⟨hheap, hvideo⟩)]
        exact ⟨h.frames, h.image⟩

theorem refines_step (hload : ShellLoads sys) (himage : ImageInKernel sys)
    (h : Refines sys base s a) (he : Fits sys s e) :
    Refines sys base (step sys s e) (ownStep sys a e) := by
  have hsched := scheduling_stepMachine hload h.scheduling he (seen s.machine.kernel s.ram)
  have htables := tables_stepMachine h.tables he (seen s.machine.kernel s.ram)
  have hmachine := h.machine
  cases e with
  | kernel e =>
    obtain ⟨hframes, hsame⟩ := kernel_refines hload himage h he
    exact ⟨congrArg (fun m => RoundRobin.step sys m (.kernel e)) hmachine, hsched, htables, hframes,
      hsame⟩
  | vidmap arg =>
    exact ⟨congrArg (fun m => RoundRobin.step sys m (.vidmap arg)) hmachine, hsched, htables,
      h.frames, h.image⟩
  | read fd buf nbytes =>
    obtain ⟨hnext, hframes, hsame⟩ := read_refines himage h he
    exact ⟨hnext, hsched, htables, hframes, hsame⟩
  | deliver buf l =>
    obtain ⟨hframes, hsame⟩ := deliver_refines himage h he
    exact ⟨hmachine, hsched, htables, hframes, hsame⟩
  | store va v =>
    obtain ⟨hframes, hsame⟩ := store_refines himage h he
    exact ⟨hmachine, hsched, htables, hframes, hsame⟩

def start (base : Nat) (k : Kernel) (kstack : Int → Suspended) (ram : Mem) : Computer :=
  ⟨initial (pagingInit (base * fourKb) k) kstack, ram⟩

def ownStart (base : Nat) (k : Kernel) (kstack : Int → Suspended) (ram : Mem) : Memories :=
  ⟨initial (pagingInit (base * fourKb) k) kstack, fun p va => ram (frame p + (va - 0x08000000))⟩

theorem refines_start (k : Kernel) (kstack : Int → Suspended)
    (hram : SameImage sys.fs ram sys.mem) :
    Refines sys base (start base k kstack ram) (ownStart base k kstack ram) where
  machine := rfl
  scheduling := Or.inl ⟨booting_initial _ kstack, rfl⟩
  tables := ⟨[], tables_initial (base * fourKb) k kstack⟩
  frames _ _ _ _ _ := rfl
  image := hram

theorem refines_run (hload : ShellLoads sys) (himage : ImageInKernel sys)
    (h : Refines sys base s a) (hes : Along (step sys) (Fits sys) s es) :
    Refines sys base (run (step sys) s es) (run (ownStep sys) a es) := by
  have hstep : ∀ s a e, Refines sys base s a → Fits sys s e →
      Refines sys base (step sys s e) (ownStep sys a e) :=
    fun _ _ _ hr he => refines_step hload himage hr he
  exact run_simulates hstep h hes

structure Shows (sys : System) (s : Computer) (a : Memories) : Prop where
  machine : a.machine = s.machine
  window : s.machine.kernel.currentTerminalId ≠ unused → ∀ va, UserWindow va →
    load s va = some (a.own s.machine.running.slot va)
  heap : s.machine.kernel.currentTerminalId ≠ unused → ∀ va, HeapWindow va →
    load s va = some (a.own 0 (heapAlias va))
  frames : ∀ p, IsSlot p → ∀ va, UserWindow va → s.ram (frame p + (va - 0x08000000)) = a.own p va
  image : SameImage sys.fs s.ram sys.mem

theorem shows_of_refines (h : Refines sys base s a) : Shows sys s a where
  machine := h.machine
  window hused va hva := by
    obtain ⟨hslot, -, hmap⟩ := mapsTo_window h.scheduling hused
    rw [load, hmap va hva.1 hva.2, Option.map_some, h.frames _ hslot va hva.1 hva.2]
  heap _ va hva := by
    obtain ⟨ts, htables⟩ := h.tables
    obtain ⟨⟨hlo, hhi⟩, hplace⟩ := heapAlias_place hva
    rw [load, (translate_heapWindow htables.directory hva).2, Option.map_some,
      ← h.frames 0 (by decide) (heapAlias va) hlo hhi, hplace]
  frames p hp va hva := h.frames p hp va hva.1 hva.2
  image := h.image

/-- Paging gives every slot a memory of its own. Along every run the one physical memory, reached
through the page tables by the programs, the system calls and the loader, shows each program the
memory of its slot, and the heap shows all of them a part of slot 0. -/
theorem own_memory (hload : ShellLoads sys) (himage : ImageInKernel sys) (k : Kernel)
    (kstack : Int → Suspended) (hram : SameImage sys.fs ram sys.mem)
    (hes : Along (step sys) (Fits sys) (start base k kstack ram) es) :
    Shows sys (run (step sys) (start base k kstack ram) es)
      (run (ownStep sys) (ownStart base k kstack ram) es) :=
  shows_of_refines (refines_run hload himage (refines_start k kstack hram) hes)

def tinyStores : List Event :=
  [.kernel tinyTick, .store 0x8100000 5, .deliver 0x8200000 [104, 105], .store 0x900000 7]

def tinyStart : Computer := start 0x405 tinyKernel (fun _ => ⟨⟨-1, 0⟩, none⟩) tinyMem

theorem tinyShell_inode {m : Machine} {prog : Program}
    (h : starts tinySystem m tinyTick = some prog) : prog.inodeNum = 0 := by
  have hchecks : (executeChecks tinySystem (some tinySystem.shell) tinyTrap.uninit).map
      (fun q => q.inodeNum) = some 0 := by decide
  have hprog : executeChecks tinySystem (some tinySystem.shell) tinyTrap.uninit = some prog := by
    have hcalls := calls_of_starts h
    simp only [starts, if_neg hcalls] at h
    exact h
  rw [hprog, Option.map_some] at hchecks
  exact Option.some.inj hchecks

theorem tinyShell_regular {m : Machine} {prog : Program}
    (h : starts tinySystem m tinyTick = some prog) :
    RegularFile tinySystem.mem tinySystem.fs prog.inodeNum := by
  rw [tinyShell_inode h]
  refine ⟨by decide, by decide, fun i hi => ?_⟩
  have hl : dataLength tinySystem.mem tinySystem.fs 0 / blockSize = 0 := by decide
  rw [hl, Nat.le_zero] at hi
  subst hi
  decide

theorem tinyTick_fits {s : Computer} (hpid : s.machine.kernel.pid ≠ 5)
    (hfree : s.machine.kernel.processState 3 = 0) : Fits tinySystem s (.kernel tinyTick) :=
  ⟨⟨trivial, fun _ => ⟨hpid, 3, by decide, hfree⟩, trivial, trivial⟩,
    fun _ h => tinyShell_regular h⟩

theorem own_memory_tiny :
    Shows tinySystem (run (step tinySystem) tinyStart tinyStores)
      (run (ownStep tinySystem)
        (ownStart 0x405 tinyKernel (fun _ => ⟨⟨-1, 0⟩, none⟩) tinyMem) tinyStores) := by
  have hused : (step tinySystem tinyStart (.kernel tinyTick)).machine.kernel.currentTerminalId ≠
      unused := by decide
  exact own_memory tinySystem_shellLoads ⟨by decide, by decide⟩ tinyKernel _ (fun _ _ _ => rfl)
    ⟨tinyTick_fits (by decide) (by decide), ⟨hused, by decide⟩,
      ⟨hused, ⟨by decide, by decide⟩⟩, ⟨hused, by decide⟩, trivial⟩

/-- An event writes to the memory of a slot: the slot is that of the process that runs or that is
started, or it is slot 0 and the store goes to the heap. -/
def Touches (sys : System) (p : Int) (s : Computer) : Event → Prop
  | .kernel e => starts sys s.machine e ≠ none ∧ (KernelRuns.step sys s.machine e).running.slot = p
  | .vidmap _ => False
  | .read _ _ _ => s.machine.running.slot = p
  | .deliver _ _ => s.machine.running.slot = p
  | .store va _ => UserWindow va ∧ s.machine.running.slot = p ∨ HeapWindow va ∧ p = 0

theorem stepOwn_other {p : Int} (hm : a.machine = s.machine) (h : ¬ Touches sys p s e) :
    stepOwn sys a e p = a.own p := by
  cases e with
  | kernel e =>
    rw [stepOwn, hm]
    cases hstarts : starts sys s.machine e with
    | none => rfl
    | some prog =>
      apply Function.update_of_ne
      rintro rfl
      exact h ⟨by simp [hstarts], rfl⟩
  | vidmap arg => rfl
  | read fd buf nbytes =>
    rw [stepOwn, hm]
    cases readCall sys fd buf nbytes s.machine.kernel
        (ownSeen sys (a.own s.machine.running.slot)) with
    | none => rfl
    | some r => exact Function.update_of_ne (Ne.symm h) _ _
  | deliver buf l =>
    rw [stepOwn, hm]
    exact Function.update_of_ne (Ne.symm h) _ _
  | store va v =>
    rw [stepOwn, hm]
    by_cases huser : UserWindow va
    · rw [if_pos huser]
      apply Function.update_of_ne
      rintro rfl
      exact h (Or.inl ⟨huser, rfl⟩)
    · rw [if_neg huser]
      by_cases hheap : HeapWindow va
      · rw [if_pos hheap]
        exact Function.update_of_ne (fun hp => h (Or.inr ⟨hheap, hp⟩)) _ _
      · rw [if_neg hheap]

/-- A memory that no event of a run writes to is at its end what it was. -/
theorem own_kept {p : Int} (hload : ShellLoads sys) (himage : ImageInKernel sys)
    (h : Refines sys base s a)
    (hes : Along (step sys) (fun s e => Fits sys s e ∧ ¬ Touches sys p s e) s es) :
    (run (ownStep sys) a es).own p = a.own p := by
  induction es generalizing s a with
  | nil => rfl
  | cons e es ih =>
    obtain ⟨⟨he, hother⟩, hrest⟩ := hes
    have hnext := refines_step hload himage h he
    rw [run_cons, ih hnext hrest]
    exact stepOwn_other h.machine hother

/-- The process that a slot holds finds its memory as it left it, whatever the programs that ran in
the meantime have stored and wherever, unless its slot is 0 and one of them used the heap. -/
theorem left_alone {p : Int} {s s' : Computer} {es' : List Event} (hload : ShellLoads sys)
    (himage : ImageInKernel sys) (k : Kernel) (kstack : Int → Suspended)
    (hram : SameImage sys.fs ram sys.mem)
    (hes : Along (step sys) (Fits sys) (start base k kstack ram) es)
    (hs : s = run (step sys) (start base k kstack ram) es)
    (hes' : Along (step sys) (fun s e => Fits sys s e ∧ ¬ Touches sys p s e) s es')
    (hs' : s' = run (step sys) s es')
    (hslot : s.machine.running.slot = p) (hused : s.machine.kernel.currentTerminalId ≠ unused)
    (hslot' : s'.machine.running.slot = p) (hused' : s'.machine.kernel.currentTerminalId ≠ unused) :
    ∀ va, UserWindow va → load s' va = load s va := by
  intro va hva
  have hbefore := refines_run hload himage (refines_start k kstack hram) hes
  rw [← hs] at hbefore
  rw [hs'] at hslot' hused' ⊢
  have hafter := refines_run hload himage hbefore ((along_and.mp hes').1)
  rw [(shows_of_refines hafter).window hused' va hva, (shows_of_refines hbefore).window hused va hva,
    hslot, hslot', own_kept hload himage hbefore hes']

def tinyTwo : Computer := run (step tinySystem) tinyStart [.kernel tinyTick, .kernel tinyTick]

def tinyOthers : List Event :=
  [.kernel tinyTick, .kernel tinyTick, .store 0x8100000 5, .store 0x900000 7, .kernel tinyTick]

/-- The second shell finds its memory as it left it. -/
theorem left_alone_tiny : tinyTwo.machine.running.slot = 1 ∧
    ∀ va, UserWindow va → load (run (step tinySystem) tinyTwo tinyOthers) va = load tinyTwo va := by
  have hother : ∀ {s : Computer} {va : Nat} {v : UInt8}, s.machine.running.slot = 0 →
      ¬ Touches tinySystem 1 s (.store va v) := by
    rintro s va v hslot (⟨-, h⟩ | ⟨-, h⟩)
    · rw [hslot] at h
      exact absurd h (by decide)
    · exact absurd h (by decide)
  have hbefore : Along (step tinySystem) (Fits tinySystem) tinyStart
      [.kernel tinyTick, .kernel tinyTick] :=
    ⟨tinyTick_fits (by decide) (by decide), tinyTick_fits (by decide) (by decide), trivial⟩
  have hothers : Along (step tinySystem)
      (fun s e => Fits tinySystem s e ∧ ¬ Touches tinySystem 1 s e) tinyTwo tinyOthers :=
    ⟨⟨tinyTick_fits (by decide) (by decide), fun h => absurd h.2 (by decide)⟩,
      ⟨tinyTick_fits (by decide) (by decide), fun h => absurd h.2 (by decide)⟩,
      ⟨⟨by decide, by decide⟩, hother (by decide)⟩, ⟨⟨by decide, by decide⟩, hother (by decide)⟩,
      ⟨tinyTick_fits (by decide) (by decide), fun h => h.1 (if_pos (by decide))⟩, trivial⟩
  exact ⟨by decide, left_alone tinySystem_shellLoads ⟨by decide, by decide⟩ tinyKernel _
    (fun _ _ _ => rfl) hbefore rfl hothers rfl (by decide) (by decide) (by decide) (by decide)⟩

theorem userEip_eq (hm : Mounted sys.fs) {inode place a : Nat} {uninit : Nat → UInt8} {mem : Mem}
    (hfile : RegularFile sys.mem sys.fs inode) (hlen : 28 ≤ dataLength sys.mem sys.fs inode)
    (hout : Outside sys.fs place 4) (hfits : place + 4 ≤ 4294967296)
    (hmem : ∀ j, j < 4 → mem (a + j) = fileByte sys.mem sys.fs inode (24 + j)) :
    Library.Processor.dwordAt mem a = KernelFrames.userEip sys place uninit inode := by
  have hread := readData_regular hm hfile (sameImage_fill hout sys.mem uninit)
    (show 24 + 4 < 4294967296 by decide) hfits hout
  have hfour : min 4 (dataLength sys.mem sys.fs inode - 24) = 4 := by omega
  rw [hfour] at hread
  rw [KernelFrames.userEip, hread]
  apply Library.Processor.dwordAt_eq
  intro j hj
  dsimp only
  rw [hmem j hj, fill_inside _ _ _ hj]

theorem started_load (hload : ShellLoads sys) (himage : ImageInKernel sys) (h : Refines sys base s a)
    {e : KernelRuns.Event} (he : Fits sys s (.kernel e)) {prog : Program}
    (hstarts : starts sys s.machine e = some prog) {i : Nat} (hi : i < fourMb - userProgramOff)
    (hlen : i < dataLength sys.mem sys.fs prog.inodeNum) :
    load (step sys s (.kernel e)) (userProgramAddr + i) =
      some (fileByte sys.mem sys.fs prog.inodeNum i) := by
  obtain ⟨ts, htables⟩ := h.tables
  have hused : (step sys s (.kernel e)).machine.kernel.currentTerminalId ≠ unused :=
    current_after_start htables he.1 (calls_of_starts hstarts)
  have hwindow : UserWindow (userProgramAddr + i) := by
    simp only [UserWindow, userProgramAddr, fourMb, userProgramOff] at *
    omega
  have hslot : (step sys s (.kernel e)).machine.running.slot =
      (KernelRuns.step sys s.machine e).running.slot := rfl
  rw [(shows_of_refines (refines_step hload himage h he)).window hused _ hwindow, hslot, ownStep,
    stepOwn, h.machine, hstarts]
  dsimp only
  rw [Function.update_self, fill_inside _ _ _ (by omega)]

/-- A process that is started finds its program in its memory, and a program of at least 28 bytes is
entered where the header of the program that it finds there says. -/
theorem finds_program (hload : ShellLoads sys) (himage : ImageInKernel sys) (k : Kernel)
    (kstack : Int → Suspended) (hram : SameImage sys.fs ram sys.mem) {e : KernelRuns.Event}
    (hes : Along (step sys) (Fits sys) (start base k kstack ram) (es ++ [.kernel e]))
    {prog : Program}
    (hstarts : starts sys (run (step sys) (start base k kstack ram) es).machine e = some prog)
    (s : Computer) (hs : s = run (step sys) (start base k kstack ram) (es ++ [.kernel e])) :
    (∀ i, i < fourMb - userProgramOff → i < dataLength sys.mem sys.fs prog.inodeNum →
      load s (userProgramAddr + i) = some (fileByte sys.mem sys.fs prog.inodeNum i)) ∧
    ∀ place uninit, Outside sys.fs place 4 → place + 4 ≤ 4294967296 →
      28 ≤ dataLength sys.mem sys.fs prog.inodeNum →
      Library.Processor.dwordAt (fun va => (load s va).getD 0) (userProgramAddr + 24) =
        KernelFrames.userEip sys place uninit prog.inodeNum := by
  obtain ⟨hbefore, hfits, -⟩ := (along_append _ es _).mp hes
  have hrefines := refines_run hload himage (refines_start k kstack hram) hbefore
  rw [run_concat] at hs
  have hbytes : ∀ i, i < fourMb - userProgramOff → i < dataLength sys.mem sys.fs prog.inodeNum →
      load s (userProgramAddr + i) = some (fileByte sys.mem sys.fs prog.inodeNum i) := by
    intro i hi hlen
    rw [hs]
    exact started_load hload himage hrefines hfits hstarts hi hlen
  refine ⟨hbytes, fun place uninit hout hend hlen => ?_⟩
  apply userEip_eq himage.mounted (hfits.2 prog hstarts) hlen hout hend
  intro j hj
  rw [Nat.add_assoc, hbytes (24 + j) (by simp only [fourMb, userProgramOff]; omega) (by omega),
    Option.getD_some]

theorem finds_program_tiny :
    load (run (step tinySystem) tinyStart [.kernel tinyTick]) 0x8048000 = some 0x7f := by
  have hsome : (starts tinySystem tinyStart.machine tinyTick).isSome = true := by decide
  obtain ⟨prog, hprog⟩ := Option.isSome_iff_exists.mp hsome
  have hinode := tinyShell_inode hprog
  have hfits : Along (step tinySystem) (Fits tinySystem) tinyStart ([] ++ [.kernel tinyTick]) :=
    ⟨tinyTick_fits (by decide) (by decide), trivial⟩
  have hbytes := (finds_program tinySystem_shellLoads ⟨by decide, by decide⟩ tinyKernel _
    (fun _ _ _ => rfl) hfits hprog _ rfl).1
  rw [hinode] at hbytes
  have hfirst : fileByte tinySystem.mem tinySystem.fs 0 0 = 0x7f := by decide
  rw [← hfirst]
  exact hbytes 0 (by decide) (by decide)

end RedstoneOS.OwnMemory
