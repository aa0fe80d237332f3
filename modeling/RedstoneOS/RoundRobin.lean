import RedstoneOS.Outcomes
import RedstoneOS.ExecuteChecks

namespace RedstoneOS.RoundRobin

open KernelState Lib Filesystem Execute Schedule ExecuteEffects Syscalls Outcomes ExecuteChecks
open KernelRuns (Machine Suspended Trap initial enterProcess)
open Library.Runs

def fKb : Int := 0x1000
def userProgramPaging : Nat := 0x08000000
def userProgramEnd : Nat := 0x08400000

/-- The system call `vidmap`. What it stores through its argument goes to the user's memory. -/
def vidmap (arg : Nat) (k : Kernel) : Int × Kernel :=
  if arg < userProgramPaging ∨ userProgramEnd ≤ arg then (-1, k)
  else (0, switchVideoPd (videoMemory + fKb * 2 * k.currentTerminalId) k.currentTerminalId k)

/-- An event of the kernel, or a system call that starts and ends no process. The calls that are
left out, `write`, `getargs`, `set_handler` and `sigreturn`, change nothing in the kernel. The PCBs,
the page tables and the variables of the scheduler are not in `mem`: a buffer laid over them is
outside of what an event says. -/
inductive Event
  | kernel (e : KernelRuns.Event)
  | read (fd : Int) (buf : Nat) (nbytes : Int) (mem : Mem)
  | vidmap (arg : Nat)

def step (sys : System) (m : Machine) : Event → Machine
  | .kernel e => KernelRuns.step sys m e
  | .read fd buf nbytes mem =>
    match readCall sys fd buf nbytes m.kernel mem with
    | some (_, k, _) => { m with kernel := k }
    | none => m
  | .vidmap arg => { m with kernel := (vidmap arg m.kernel).2 }

def isTick : Event → Bool
  | .kernel (.tick _ _) => true
  | _ => false

def ticks (es : List Event) : Nat := es.countP isTick

def slices (sys : System) : Machine → List Event → List Int
  | _, [] => []
  | m, e :: es =>
    if isTick e then (step sys m e).kernel.nextScheTerminal :: slices sys (step sys m e) es
    else slices sys (step sys m e) es

structure GoesRound (sys : System) (m : Machine) (es : List Event) : Prop where
  kth : ∀ j, j < ticks es → (slices sys m es)[j]? = some ((j % 3 : Nat) : Int)
  three : ∀ j, j + 3 ≤ ticks es → ∀ t, IsTerminal t →
    (((slices sys m es).drop j).take 3).count t = 1
  between : 0 < ticks es →
    (run (step sys) m es).kernel.nextScheTerminal = (run (step sys) m es).kernel.currentTerminalId

/-- After `n` ticks: the terminal of the last of them is the current one. -/
structure InTurn (n : Nat) (k : Kernel) : Prop where
  first : n = 0 → k.currentTerminalId = unused ∧ k.nextScheTerminal = 0
  later : 0 < n → k.currentTerminalId = (((n - 1) % 3 : Nat) : Int) ∧
    k.nextScheTerminal = k.currentTerminalId

def SameTurn (k k' : Kernel) : Prop :=
  k'.currentTerminalId = k.currentTerminalId ∧ k'.nextScheTerminal = k.nextScheTerminal

variable {sys : System} {m : Machine} {k k' : Kernel} {n : Nat} {e : Event}

theorem SameTurn.trans {k'' : Kernel} (h : SameTurn k k') (h' : SameTurn k' k'') :
    SameTurn k k'' := ⟨h'.1.trans h.1, h'.2.trans h.2⟩

theorem InTurn.same (h : InTurn n k) (hk : SameTurn k k') : InTurn n k' := by
  refine ⟨fun hn => ?_, fun hn => ?_⟩
  · rw [hk.1, hk.2]
    exact h.first hn
  · rw [hk.1, hk.2]
    exact h.later hn

theorem sameTurn_spawn (prog : Program) (r : Regs) (k : Kernel) : SameTurn k (spawn prog r k) := by
  obtain ⟨ps, q, htake, -⟩ := takeSlot_cases k
  rw [spawn_eq_takeSlot prog r htake]
  exact ⟨rfl, rfl⟩

theorem sameTurn_haltRelease (k : Kernel) : SameTurn k (haltRelease k) := by
  rw [haltRelease_eq rfl]
  exact ⟨rfl, rfl⟩

theorem sameTurn_kernelStep {e : KernelRuns.Event} (he : isTick (.kernel e) = false) :
    SameTurn m.kernel (KernelRuns.step sys m e).kernel := by
  cases e with
  | tick t x => simp [isTick] at he
  | switchTerminal target => exact ⟨rfl, rfl⟩
  | execute command x =>
    obtain ⟨prog, -, -, hs⟩ | ⟨-, hm⟩ := execute_step sys command x m
    · rw [hs.kernel]
      exact sameTurn_spawn prog _ _
    · rw [hm]
      exact ⟨rfl, rfl⟩
  | halt status x =>
    have hrelease := sameTurn_haltRelease m.kernel
    obtain ⟨-, prog, hs⟩ | ⟨-, hk⟩ := halt_step sys status x m
    · rw [hs.kernel]
      exact hrelease.trans (sameTurn_spawn prog _ _)
    · rw [hk]
      exact hrelease
  | openFile filename => exact openCall_keeps ⟨rfl, rfl⟩ (fun _ _ => ⟨rfl, rfl⟩) sys filename
  | closeFile fd => exact closeCall_keeps ⟨rfl, rfl⟩ (fun _ _ => ⟨rfl, rfl⟩) fd

theorem sameTurn_step (he : isTick e = false) : SameTurn m.kernel (step sys m e).kernel := by
  cases e with
  | kernel e => exact sameTurn_kernelStep he
  | read fd buf nbytes mem =>
    rw [step]
    cases hread : readCall sys fd buf nbytes m.kernel mem with
    | none => exact ⟨rfl, rfl⟩
    | some r =>
      obtain ⟨value, k, mem'⟩ := r
      obtain rfl | ⟨pos, rfl⟩ := readCall_kernel hread
      · exact ⟨rfl, rfl⟩
      · exact ⟨rfl, rfl⟩
  | vidmap arg =>
    rw [step, vidmap]
    split
    · exact ⟨rfl, rfl⟩
    · exact ⟨rfl, rfl⟩

theorem nextTerminal_inTurn (h : InTurn n k) : nextTerminal k = ((n % 3 : Nat) : Int) := by
  by_cases hn : n = 0
  · obtain ⟨hcurrent, hnext⟩ := h.first hn
    rw [nextTerminal, hcurrent, hnext, hn]
    rfl
  · obtain ⟨hcurrent, hnext⟩ := h.later (Nat.pos_of_ne_zero hn)
    have ht : IsTerminal k.currentTerminalId := by
      rw [hcurrent]
      simp only [IsTerminal, terminalMaximum]
      omega
    rw [nextTerminal_of_current ht hnext, hcurrent]
    omega

/-- Both exits of the handler, and the shell that cannot be started, leave the terminal that was
picked as the current one. -/
theorem tick_turn (sys : System) (t x : Trap) (m : Machine) :
    (KernelRuns.step sys m (.tick t x)).kernel.currentTerminalId = nextTerminal m.kernel ∧
      (KernelRuns.step sys m (.tick t x)).kernel.nextScheTerminal = nextTerminal m.kernel := by
  obtain ⟨-, ⟨prog, hs⟩ | ⟨-, tss, hk⟩⟩ | ⟨-, -, hk⟩ := tick_step sys t x m
  · obtain ⟨hcurrent, hnext⟩ :=
      sameTurn_spawn prog (KernelRuns.entryRegs m x) (shellKernel (KernelRuns.entryRegs m t) m.kernel)
    rw [hs.kernel, hcurrent, hnext]
    exact ⟨rfl, rfl⟩
  · rw [hk]
    exact ⟨rfl, rfl⟩
  · rw [hk]
    exact ⟨rfl, rfl⟩

theorem inTurn_tick (sys : System) (h : InTurn n m.kernel) (he : isTick e = true) :
    InTurn (n + 1) (step sys m e).kernel ∧
      (step sys m e).kernel.nextScheTerminal = ((n % 3 : Nat) : Int) := by
  cases e with
  | kernel e =>
    cases e with
    | tick t x =>
      obtain ⟨hcurrent, hnext⟩ := tick_turn sys t x m
      rw [nextTerminal_inTurn h] at hcurrent hnext
      exact ⟨⟨fun hn => absurd hn (Nat.succ_ne_zero n), fun _ => ⟨hcurrent, hnext.trans hcurrent.symm⟩⟩,
        hnext⟩
    | _ => simp [isTick] at he
  | _ => simp [isTick] at he

theorem slices_eq (sys : System) (h : InTurn n m.kernel) (es : List Event) :
    slices sys m es = (List.range' n (ticks es)).map (fun j => ((j % 3 : Nat) : Int)) ∧
      InTurn (n + ticks es) (run (step sys) m es).kernel := by
  induction es generalizing n m with
  | nil => exact ⟨rfl, h⟩
  | cons e es ih =>
    cases he : isTick e with
    | true =>
      obtain ⟨hturn, hnext⟩ := inTurn_tick sys h he
      obtain ⟨hslices, hrun⟩ := ih hturn
      have hticks : ticks (e :: es) = ticks es + 1 := List.countP_cons_of_pos he
      rw [slices, if_pos he, hslices, hnext, hticks, run_cons, List.range'_succ, List.map_cons]
      refine ⟨rfl, ?_⟩
      rw [Nat.add_comm (ticks es) 1, ← Nat.add_assoc]
      exact hrun
    | false =>
      have hticks : ticks (e :: es) = ticks es := List.countP_cons_of_neg (by simp [he])
      rw [slices, if_neg (by simp [he]), hticks, run_cons]
      exact ih (h.same (sameTurn_step he))

theorem inTurn_initial (k : Kernel) (kstack : Int → Suspended) :
    InTurn 0 (initial k kstack).kernel :=
  ⟨fun _ => ⟨rfl, rfl⟩, fun h => absurd h (Nat.lt_irrefl 0)⟩

theorem count_three (j : Nat) {t : Int} (ht : IsTerminal t) :
    ([((j % 3 : Nat) : Int), (((j + 1) % 3 : Nat) : Int), (((j + 2) % 3 : Nat) : Int)]).count t = 1 := by
  have hcases : j % 3 = 0 ∨ j % 3 = 1 ∨ j % 3 = 2 := by omega
  have hterminal : t = 0 ∨ t = 1 ∨ t = 2 := by
    simp only [IsTerminal, terminalMaximum] at ht
    omega
  obtain h | h | h := hcases <;>
    simp only [Nat.add_mod j 1, Nat.add_mod j 2, h] <;>
      obtain rfl | rfl | rfl := hterminal <;> decide

/-- From the start of the scheduler on, whatever happens between the ticks and whether or not they
can start their shells, the terminals take turns. -/
theorem goes_round (sys : System) (k : Kernel) (kstack : Int → Suspended) (es : List Event) :
    GoesRound sys (initial k kstack) es := by
  obtain ⟨hslices, hrun⟩ := slices_eq sys (inTurn_initial k kstack) es
  rw [Nat.zero_add] at hrun
  refine ⟨fun j hj => ?_, fun j hj t ht => ?_, fun hpos => (hrun.later hpos).2⟩
  · rw [hslices, List.getElem?_map, List.getElem?_range' hj]
    simp
  · have hthree : (((slices sys (initial k kstack) es).drop j).take 3) =
        [((j % 3 : Nat) : Int), (((j + 1) % 3 : Nat) : Int), (((j + 2) % 3 : Nat) : Int)] := by
      obtain ⟨rest, hrest⟩ := Nat.exists_eq_add_of_le hj
      have hsplit : List.range' 0 (ticks es) =
          List.range' 0 j ++ (List.range' j 3 ++ List.range' (j + 3) rest) := by
        have hrow : List.range' 0 j ++ List.range' (0 + j) (3 + rest) = List.range' 0 (j + (3 + rest)) :=
          List.range'_append_1
        rw [hrest, List.range'_append_1, Nat.add_assoc, ← hrow, Nat.zero_add]
      rw [hslices, ← List.map_drop, ← List.map_take, hsplit, List.drop_left' List.length_range',
        List.take_left' List.length_range']
      rfl
    rw [hthree]
    exact count_three j ht

end RedstoneOS.RoundRobin
