import RedstoneOS.ExecuteChecks
import RedstoneOS.Outcomes
import Mathlib.Tactic.IntervalCases

namespace RedstoneOS.Paging

open KernelState Execute Schedule ExecuteEffects Syscalls KernelRuns Outcomes ExecuteChecks
open Library.Runs

def oneKb : Nat := 1024
def fourKb : Nat := 4096
def notPresent : Nat := 0x00000002
def fourMbPresent : Nat := 0x83

/-- `pageTable` is the address of `kernel_page_table`. -/
def pagingInit (pageTable : Nat) (k : Kernel) : Kernel :=
  { k with
    kernelPageTable := fun i =>
      if 0 ≤ i ∧ i < oneKb then
        if i = video then u32 (i * fourKb) ||| 0x07 else u32 (i * fourKb) ||| notPresent
      else k.kernelPageTable i
    pdArray := Function.update (Function.update (Function.update
      (fun i => if i < oneKb then notPresent else k.pdArray i)
      2 (2 * oneKb * fourKb ||| fourMbUser))
      0 (pageTable ||| 0x07))
      1 (oneKb * fourKb ||| fourMbPresent) }

def fourMb : Nat := 0x400000

/-- The translation of the processor with the directory `pd_array`. The only page table that an
entry points to is `kernel_page_table`. -/
def translate (k : Kernel) (va : Nat) : Option Nat :=
  let pde := k.pdArray (va / fourMb)
  if pde.testBit 0 = false then none
  else if pde.testBit 7 then some (pde / fourMb * fourMb + va % fourMb)
  else
    let pte := k.kernelPageTable (va / fourKb % oneKb : Nat)
    if pte.testBit 0 = false then none else some (pte / fourKb * fourKb + va % fourKb)

/-- The 4MB that a program sees at 0x08000000. -/
def UserWindow (va : Nat) : Prop := 0x08000000 ≤ va ∧ va < 0x08400000

/-- A buffer that lies in the window. -/
def InWindow (buf n : Nat) : Prop := 0x08000000 ≤ buf ∧ buf + n ≤ 0x08400000

def HeapWindow (va : Nat) : Prop := 0x800000 ≤ va ∧ va < 0xC00000

def Live (k : Kernel) (p : Int) : Prop := IsSlot p ∧ k.processState p = 1

/-- The kernel with the page directory that the process in a slot runs under. -/
def underPage (p : Int) (k : Kernel) : Kernel := switchPd (userPageAddr p) k

def Apart (k k' : Kernel) (va va' : Nat) : Prop :=
  ∃ pa pa', translate k va = some pa ∧ translate k' va' = some pa' ∧ pa ≠ pa'

/-- No live process shares memory with the heap or with another live process. -/
structure Isolated (k : Kernel) : Prop where
  heap : ∀ p, Live k p → ∀ va ha, UserWindow va → HeapWindow ha →
    Apart (underPage p k) (underPage p k) va ha
  windows : ∀ p q, Live k p → Live k q → p ≠ q → ∀ va va', UserWindow va → UserWindow va' →
    Apart (underPage p k) (underPage q k) va va'

def SameDirectory (k k' : Kernel) : Prop := ∀ i, i ≠ userPage → k'.pdArray i = k.pdArray i

variable {k k₀ : Kernel} {pageTable : Nat}

theorem translate_large {va page : Nat} (h : k.pdArray (va / fourMb) / fourMb = page)
    (h0 : (k.pdArray (va / fourMb)).testBit 0 = true)
    (h7 : (k.pdArray (va / fourMb)).testBit 7 = true) :
    translate k va = some (page * fourMb + va % fourMb) := by
  simp only [translate, h0, h7, h, if_true, Bool.true_eq_false, if_false]

theorem userPageEntry_page {p : Int} (hp : IsSlot p) :
    userPageEntry p / fourMb = (2 + p).toNat ∧ (userPageEntry p).testBit 0 = true ∧
      (userPageEntry p).testBit 7 = true := by
  obtain ⟨hlo, hhi⟩ := hp
  interval_cases p <;> decide

theorem translate_user {p : Int} (hp : IsSlot p) {va : Nat} (hva : UserWindow va) :
    translate (underPage p k) va = some ((2 + p).toNat * fourMb + va % fourMb) := by
  have hdir : va / fourMb = userPage := by
    simp only [UserWindow, fourMb, userPage] at hva ⊢
    omega
  have hentry : (underPage p k).pdArray (va / fourMb) = userPageEntry p := by
    rw [hdir]
    exact Function.update_self userPage (userPageEntry p) k.pdArray
  obtain ⟨hpage, h0, h7⟩ := userPageEntry_page hp
  rw [← hentry] at hpage h0 h7
  exact translate_large hpage h0 h7

theorem translate_heap (h : SameDirectory (pagingInit pageTable k₀) k) (p : Int) {ha : Nat}
    (hha : HeapWindow ha) : translate (underPage p k) ha = some (2 * fourMb + ha % fourMb) := by
  have hdir : ha / fourMb = 2 := by
    simp only [HeapWindow, fourMb] at hha ⊢
    omega
  have hentry : (underPage p k).pdArray (ha / fourMb) = 2 * oneKb * fourKb ||| fourMbUser := by
    rw [hdir]
    exact h 2 (by decide)
  refine translate_large ?_ ?_ ?_ <;> rw [hentry] <;> decide

theorem windows_apart {p q : Int} (hp : IsSlot p) (hq : IsSlot q) (hpq : p ≠ q)
    {va va' : Nat} (hva : UserWindow va) (hva' : UserWindow va') :
    Apart (underPage p k) (underPage q k) va va' := by
  refine ⟨_, _, translate_user hp hva, translate_user hq hva', ?_⟩
  simp only [IsSlot, fourMb] at hp hq ⊢
  omega

/-- The heap lies where the image of slot 0 lies, and apart from all the others. -/
theorem heap_apart_iff (h : SameDirectory (pagingInit pageTable k₀) k) {p : Int}
    (hp : IsSlot p) :
    (∀ va ha, UserWindow va → HeapWindow ha → Apart (underPage p k) (underPage p k) va ha) ↔
      p ≠ 0 := by
  constructor
  · rintro hapart rfl
    have hva : UserWindow 0x08048000 := by simp [UserWindow]
    have hha : HeapWindow 0x848000 := by simp [HeapWindow]
    obtain ⟨pa, pa', hpa, hpa', hne⟩ := hapart _ _ hva hha
    rw [translate_user hp hva, Option.some.injEq] at hpa
    rw [translate_heap h 0 hha, Option.some.injEq] at hpa'
    exact hne (hpa.symm.trans hpa')
  · intro hne va ha hva hha
    refine ⟨_, _, translate_user hp hva, translate_heap h p hha, ?_⟩
    simp only [IsSlot, fourMb] at hp ⊢
    omega

theorem isolated_iff_of_sameDirectory (h : SameDirectory (pagingInit pageTable k₀) k) :
    Isolated k ↔ k.processState 0 ≠ 1 := by
  constructor
  · intro hiso hlive
    have hzero : Live k 0 := ⟨by decide, hlive⟩
    exact (heap_apart_iff h hzero.1).mp (hiso.heap 0 hzero) rfl
  · intro hdead
    refine ⟨fun p hp => (heap_apart_iff h hp.1).mpr ?_, fun p q hp hq hpq va va' =>
      windows_apart hp.1 hq.1 hpq⟩
    rintro rfl
    exact hdead hp.2

theorem SameDirectory.trans {k k' k'' : Kernel} (h : SameDirectory k k')
    (h' : SameDirectory k' k'') : SameDirectory k k'' :=
  fun i hi => (h' i hi).trans (h i hi)

theorem sameDirectory_switchPd (addr : Int) (k : Kernel) : SameDirectory k (switchPd addr k) :=
  fun _ hi => Function.update_of_ne hi _ _

theorem sameDirectory_takeSlot (k : Kernel) : SameDirectory k (takeSlot k) := by
  intro i _
  rw [takeSlot]
  split <;> rfl

theorem sameDirectory_spawn (prog : Program) (r : Regs) (k : Kernel) :
    SameDirectory k (spawn prog r k) :=
  (sameDirectory_takeSlot k).trans (fun _ hi => Function.update_of_ne hi _ _)

theorem sameDirectory_haltRelease (k : Kernel) : SameDirectory k (haltRelease k) := by
  intro i _
  rw [haltRelease_eq rfl]

theorem sameDirectory_openCall (sys : System) (filename : Option (List UInt8)) (k : Kernel) :
    SameDirectory k (openCall sys filename k).2 :=
  openCall_keeps (P := SameDirectory k) (fun _ _ => rfl) (fun _ _ _ _ => rfl) sys filename

theorem sameDirectory_closeCall (fd : Int) (k : Kernel) :
    SameDirectory k (closeCall fd k).2 :=
  closeCall_keeps (P := SameDirectory k) (fun _ _ => rfl) (fun _ _ _ _ => rfl) fd

theorem sameDirectory_step (sys : System) (m : Machine) (e : Event) :
    SameDirectory m.kernel (step sys m e).kernel := by
  cases e with
  | tick t x =>
    have hshell : SameDirectory m.kernel (shellKernel (entryRegs m t) m.kernel) := fun _ _ => rfl
    obtain ⟨-, ⟨prog, hs⟩ | ⟨-, tss, hk⟩⟩ | ⟨-, -, hk⟩ := tick_step sys t x m
    · rw [hs.kernel]
      exact hshell.trans (sameDirectory_spawn prog _ _)
    · rw [hk]
      exact hshell
    · rw [hk]
      exact fun i hi => Function.update_of_ne hi _ _
  | switchTerminal target => exact fun _ _ => rfl
  | execute command x =>
    obtain ⟨prog, -, -, hs⟩ | ⟨-, hm⟩ := execute_step sys command x m
    · rw [hs.kernel]
      exact sameDirectory_spawn prog _ _
    · rw [hm]
      exact fun _ _ => rfl
  | halt status x =>
    obtain ⟨-, prog, hs⟩ | ⟨-, hk⟩ := halt_step sys status x m
    · rw [hs.kernel]
      exact (sameDirectory_haltRelease m.kernel).trans (sameDirectory_spawn prog _ _)
    · rw [hk]
      exact (sameDirectory_haltRelease m.kernel).trans (sameDirectory_switchPd _ _)
  | openFile filename => exact sameDirectory_openCall sys filename m.kernel
  | closeFile fd => exact sameDirectory_closeCall fd m.kernel

theorem sameDirectory_run (sys : System) (k : Kernel) (kstack : Int → Suspended)
    (es : List Event) : SameDirectory k (run (step sys) (initial k kstack) es).kernel :=
  run_always (J := fun m => SameDirectory k m.kernel)
    (fun m e hm => hm.trans (sameDirectory_step sys m e)) (fun _ _ => rfl) es

/-- In every state after boot, all windows are isolated exactly when slot 0 is not live. -/
theorem isolated_iff (sys : System) (pageTable : Nat) (k : Kernel) (kstack : Int → Suspended)
    (es : List Event) :
    Isolated (run (step sys) (initial (pagingInit pageTable k) kstack) es).kernel ↔
      (run (step sys) (initial (pagingInit pageTable k) kstack) es).kernel.processState 0 ≠ 1 :=
  isolated_iff_of_sameDirectory (sameDirectory_run sys (pagingInit pageTable k) kstack es)

def tinyFirst : Machine :=
  run (step tinySystem) (initial (pagingInit 0x405000 tinyKernel) fun _ => ⟨⟨-1, 0⟩, none⟩) [tinyTick]

/-- The first shell runs in slot 0, and its program image is the heap. -/
theorem heap_is_image_of_slot_zero :
    tinyFirst.running.slot = 0 ∧ Live tinyFirst.kernel 0 ∧
      translate tinyFirst.kernel 0x08048000 = some 0x848000 ∧
      translate tinyFirst.kernel 0x848000 = some 0x848000 ∧ ¬ Isolated tinyFirst.kernel :=
  ⟨by decide, ⟨by decide, by decide⟩, by decide, by decide,
    fun h => (isolated_iff_of_sameDirectory (sameDirectory_run tinySystem _ _ [tinyTick])).mp h
      (by decide)⟩

end RedstoneOS.Paging
