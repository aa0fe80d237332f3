import RedstoneOS.Syscalls
import RedstoneOS.ExecuteChecks
import RedstoneOS.SequentialReads

namespace RedstoneOS.Descriptors

open KernelState Lib Filesystem Execute Syscalls ExecuteChecks SequentialReads

structure OpenFile where
  ops : FileOps
  inode : Nat
  position : Nat

abbrev Table := Int → Option OpenFile

/-- A system call on descriptors. `sys` is the memory in which `open` looks the name up, `mem`
the memory that `read` finds, and `device` what the terminal or the clock returns. The buffer of a
`read` may lie anywhere in `mem`, which the PCBs are not in. -/
inductive Call
  | openFile (sys : System) (filename : Option (List UInt8))
  | closeFile (fd : Int)
  | read (sys : System) (fd : Int) (buf : Nat) (nbytes : Int) (mem : Mem) (device : Int)
  | write (fd : Int) (buf : Nat) (device : Int)

def lookup (sys : System) (filename : Option (List UInt8)) : Option Dentry :=
  filename.bind fun name => readDentryByName sys.mem sys.fs (byteAt name)

structure Return where
  value : Int
  jump : Option (Option FileOps)
  kernel : Kernel

def ReadDispatch.jump : ReadDispatch → Option (Option FileOps)
  | .ret _ => none
  | .enter ops => some (some ops)
  | .nullCall => some none

def call (k : Kernel) : Call → Return
  | .openFile sys filename =>
    let r := openCall sys filename k
    ⟨r.1, if r.1 = -1 then none else some (entryAt r.2 r.1).fOp, r.2⟩
  | .closeFile fd =>
    let r := closeCall fd k
    ⟨r.1, if r.1 = -1 then none else some (entryAt k fd).fOp, r.2⟩
  | .read sys fd buf nbytes mem device =>
    let jump := ReadDispatch.jump (readDispatch fd buf k)
    match readCall sys fd buf nbytes k mem with
    | some (value, k', _) => ⟨value, jump, k'⟩
    | none => ⟨device, jump, k⟩
  | .write fd buf device =>
    ⟨writeCall fd buf device k, ReadDispatch.jump (writeDispatch fd buf k), k⟩

/-- The `file_array` of the current process holds the table. A closed descriptor may keep
its old fields, an open one has its operations. -/
structure Refines (k : Kernel) (d : Table) : Prop where
  standard : ∀ fd, fd = 0 ∨ fd = 1 → (entryAt k fd).flags ≠ 0 ∧ (entryAt k fd).fOp = some .terminal
  closed : ∀ fd, d fd = none → 2 ≤ fd → fd ≤ 7 → (entryAt k fd).flags = 0
  opened : ∀ fd f, d fd = some f → 2 ≤ fd ∧ fd ≤ 7 ∧ (entryAt k fd).flags ≠ 0 ∧
    (entryAt k fd).fOp = some f.ops ∧ (entryAt k fd).inode = f.inode ∧
    (entryAt k fd).filePosition = f.position

variable {k : Kernel} {d : Table} {fd : Int}

theorem Refines.flags (h : Refines k d) (hfd : 2 ≤ fd ∧ fd ≤ 7) :
    (entryAt k fd).flags = 0 ↔ d fd = none := by
  refine ⟨fun hflags => ?_, fun hnone => h.closed fd hnone hfd.1 hfd.2⟩
  cases hd : d fd with
  | none => rfl
  | some f => exact absurd hflags (h.opened fd f hd).2.2.1

theorem Refines.outside (h : Refines k d) (hfd : ¬ (2 ≤ fd ∧ fd ≤ 7)) : d fd = none := by
  cases hd : d fd with
  | none => rfl
  | some f => exact absurd ⟨(h.opened fd f hd).1, (h.opened fd f hd).2.1⟩ hfd

theorem Refines.setEntry (h : Refines k d) (hfd : 2 ≤ fd ∧ fd ≤ 7) {g : FileEntry → FileEntry}
    {o : Option OpenFile} (hclosed : o = none → (g (entryAt k fd)).flags = 0)
    (hopened : ∀ f, o = some f → (g (entryAt k fd)).flags ≠ 0 ∧
      (g (entryAt k fd)).fOp = some f.ops ∧ (g (entryAt k fd)).inode = f.inode ∧
      (g (entryAt k fd)).filePosition = f.position) :
    Refines (Syscalls.setEntry fd g k) (Function.update d fd o) := by
  refine ⟨fun j hj => ?_, fun j hj hlo hhi => ?_, fun j f hj => ?_⟩
  · rw [entryAt_setEntry, if_neg (by omega)]
    exact h.standard j hj
  · rw [entryAt_setEntry]
    by_cases hjf : j = fd
    · subst hjf
      rw [Function.update_self] at hj
      rw [if_pos rfl]
      exact hclosed hj
    · rw [Function.update_of_ne hjf] at hj
      rw [if_neg hjf]
      exact h.closed j hj hlo hhi
  · rw [entryAt_setEntry]
    by_cases hjf : j = fd
    · subst hjf
      rw [Function.update_self] at hj
      rw [if_pos rfl]
      exact ⟨hfd.1, hfd.2, hopened f hj⟩
    · rw [Function.update_of_ne hjf] at hj
      rw [if_neg hjf]
      exact h.opened j f hj

theorem Refines.congr {k' : Kernel} (h : Refines k d) (he : ∀ fd, entryAt k' fd = entryAt k fd) :
    Refines k' d :=
  ⟨fun fd => he fd ▸ h.standard fd, fun fd => he fd ▸ h.closed fd, fun fd f => he fd ▸ h.opened fd f⟩

theorem Refines.setFilePosition (h : Refines k d) {f : OpenFile} (hd : d fd = some f) (pos : Nat) :
    ∃ position, Refines (Filesystem.setFilePosition (pcbAddr k.pid) fd pos k)
      (Function.update d fd (some { f with position := position })) := by
  by_cases hown : pcbAddr k.pid = getPcbAddr k
  · obtain ⟨hlo, hhi, hflags, hops, hinode, -⟩ := h.opened fd f hd
    refine ⟨pos, ?_⟩
    rw [Filesystem.setFilePosition, hown]
    refine h.setEntry (g := fun e => { e with filePosition := pos }) ⟨hlo, hhi⟩
      (fun hno => absurd hno (Option.some_ne_none _)) fun f' hf' => ?_
    cases hf'
    exact ⟨hflags, hops, hinode, rfl⟩
  · refine ⟨f.position, ?_⟩
    have hsame : Function.update d fd (some { f with position := f.position }) = d := by
      rw [← hd]
      exact Function.update_eq_self fd d
    rw [hsame]
    exact h.congr fun j => congrArg (fun p => Pcb.fileArray p j)
      (Function.update_of_ne (Ne.symm hown) _ _)

def Fresh (k : Kernel) : Prop :=
  ∀ fd, (fd = 0 ∨ fd = 1 → (entryAt k fd).flags ≠ 0 ∧ (entryAt k fd).fOp = some .terminal) ∧
    (2 ≤ fd → fd ≤ 7 → (entryAt k fd).flags = 0)

example : (call tinyBoot.kernel (.openFile tinySystem (some tinySystem.shell))).value = 2 := by
  decide

end RedstoneOS.Descriptors
