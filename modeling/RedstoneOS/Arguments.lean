import RedstoneOS.ProcessStarts
import RedstoneOS.CommandStrings
import Mathlib.Data.List.GetD

namespace RedstoneOS.Arguments

open KernelState Lib Library.ByteMemory Execute Schedule ExecuteEffects Syscalls KernelRuns
open Sessions SessionSteps SessionRuns Outcomes ProcessStarts ExecuteChecks CommandStrings
open Library.Runs

variable {sys : System} {m : Machine} {e : Event} {k k' : Kernel} {name args : List UInt8}

def commandLine (name args : List UInt8) : List UInt8 := name ++ 32 :: (args ++ [0])

structure GoodCommand (name args : List UInt8) : Prop where
  nameLength : 1 ≤ name.length ∧ name.length ≤ bufLen
  nameBytes : ∀ c, c ∈ name → c ≠ 0 ∧ c ≠ 32 ∧ c ≠ 10
  argsLength : args.length ≤ bufLen
  argsBytes : ∀ c, c ∈ args → c ≠ 0 ∧ c ≠ 10

theorem commandName_commandLine (h : GoodCommand name args) :
    commandName (commandLine name args) = name :=
  takeWhile_append_stop (fun c hc => decide_eq_true (h.nameBytes c hc)) rfl

theorem commandArgs_commandLine (h : GoodCommand name args) :
    commandArgs (commandLine name args) = args := by
  have hrest : (commandLine name args).drop (name.length + 1) = args ++ [0] := by
    rw [commandLine, List.append_cons]
    exact List.drop_left' (by simp)
  rw [commandArgs, commandName_commandLine h, hrest]
  exact takeWhile_append_stop (fun c hc => decide_eq_true (h.argsBytes c hc)) rfl

theorem executeChecks_args (h : GoodCommand name args) {uninit : Nat → UInt8} {prog : Program}
    (hprog : executeChecks sys (some (commandLine name args)) uninit = some prog) :
    prog.args = args := by
  rw [args_of_executeChecks hprog, commandArgs_commandLine h]

def Stored (k : Kernel) (p : Int) (args : List UInt8) : Prop :=
  (k.pcbs (pcbAddr p)).pcbExeArgs = args ++ List.replicate (bufLen - args.length) 0 ∧
    (k.pcbs (pcbAddr p)).pcbArgSize = args.length

def KeepsArguments (k k' : Kernel) : Prop :=
  ∀ addr, (k'.pcbs addr).pcbExeArgs = (k.pcbs addr).pcbExeArgs ∧
    (k'.pcbs addr).pcbArgSize = (k.pcbs addr).pcbArgSize

theorem KeepsArguments.stored (h : KeepsArguments k k') {p : Int} (hs : Stored k p args) :
    Stored k' p args := by
  rw [Stored, (h _).1, (h _).2]
  exact hs

theorem keepsArguments_refl (k : Kernel) : KeepsArguments k k := fun _ => ⟨rfl, rfl⟩

theorem keepsArguments_update {addr : Int} {p : Pcb} (hk : k'.pcbs = Function.update k.pcbs addr p)
    (hp : p.pcbExeArgs = (k.pcbs addr).pcbExeArgs ∧ p.pcbArgSize = (k.pcbs addr).pcbArgSize) :
    KeepsArguments k k' := by
  intro a
  rw [hk]
  by_cases ha : a = addr
  · subst ha
    rw [Function.update_self]
    exact hp
  · rw [Function.update_of_ne ha]
    exact ⟨rfl, rfl⟩

theorem keepsArguments_haltRelease (k : Kernel) : KeepsArguments k (haltRelease k) :=
  keepsArguments_update (congrArg Kernel.pcbs (haltRelease_eq rfl)) ⟨rfl, rfl⟩

theorem keepsArguments_saveContext (r : Regs) (k : Kernel) : KeepsArguments k (saveContext r k) :=
  keepsArguments_update (congrArg Kernel.pcbs (saveContext_eq r k)) ⟨rfl, rfl⟩

theorem keepsArguments_setEntry (fd : Int) (f : FileEntry → FileEntry) (k : Kernel) :
    KeepsArguments k (setEntry fd f k) :=
  keepsArguments_update rfl ⟨rfl, rfl⟩

theorem keepsArguments_step (hcalls : (step sys m e).calls = m.calls) :
    KeepsArguments m.kernel (step sys m e).kernel := by
  have hstarted : ∀ {prog r k}, ¬ Started sys m e prog r k := by
    intro prog r k hs
    have := hs.calls
    omega
  cases e with
  | tick t x =>
    obtain ⟨-, ⟨prog, hs⟩ | ⟨-, tss, hk⟩⟩ | ⟨-, -, hk⟩ := tick_step sys t x m
    · exact absurd hs hstarted
    · rw [hk]
      exact keepsArguments_saveContext (entryRegs m t) m.kernel
    · rw [hk]
      exact keepsArguments_saveContext (entryRegs m t) m.kernel
  | switchTerminal target => exact keepsArguments_refl m.kernel
  | execute command x =>
    obtain ⟨prog, -, -, hs⟩ | ⟨-, hm⟩ := execute_step sys command x m
    · exact absurd hs hstarted
    · rw [hm]
      exact keepsArguments_refl m.kernel
  | halt status x =>
    obtain ⟨-, prog, hs⟩ | ⟨-, hk⟩ := halt_step sys status x m
    · exact absurd hs hstarted
    · rw [hk]
      exact keepsArguments_haltRelease m.kernel
  | openFile filename =>
    apply openCall_keeps (keepsArguments_refl m.kernel)
    exact fun fd f => keepsArguments_setEntry fd f m.kernel
  | closeFile fd =>
    apply closeCall_keeps (keepsArguments_refl m.kernel)
    exact fun fd f => keepsArguments_setEntry fd f m.kernel

theorem stored_spawn {prog : Program} {r : Regs} {i : Int}
    (hi : freeSlot k.processState = some i) : Stored (spawn prog r k) i prog.args := by
  rw [Stored, spawn_pcb_new prog r hi]
  exact ⟨rfl, rfl⟩

def Remembers (proc : Proc) (args : List UInt8) (m : Machine) : Prop :=
  ∃ a, Represents m a ∧ (∀ t, IsTerminal t → a.stack t ≠ []) ∧ proc.call ≤ m.calls ∧
    ∀ t j, j ∈ a.stack t → j.proc.call = proc.call → j.proc = proc ∧ Stored m.kernel proc.slot args

theorem stored_spawn_other {prog : Program} {r : Regs} {i p : Int}
    (hi : freeSlot k.processState = some i) (hp : p ≠ i) (h : Stored k p args) :
    Stored (spawn prog r k) p args := by
  rw [Stored, spawn_pcb_other prog r hi hp]
  exact h

theorem startsFrom_job {prog : Program} {i : Int} {a : Session} (hr : Represents (step sys m e) a)
    (hs : StartsFrom sys m e prog k i) {t : Int} {j : Job} (hj : j ∈ a.stack t)
    (h : j.proc.slot = i ∨ j.proc.call = m.calls + 1) : j.proc = ⟨i, m.calls + 1⟩ := by
  obtain ⟨c, hc, hrun⟩ := hr.running
  rw [hs.running] at hrun
  have hslot : j.proc.slot = c.proc.slot := by
    obtain hslot | hcall := h
    · rw [hslot, ← hrun]
    · exact hr.holds.callsApart t j hj _ c (mem_of_head? hc) (by rw [hcall, ← hrun])
  rw [slot_inj hr.holds hj (mem_of_head? hc) hslot, hrun]

theorem remembers_start (hload : ShellLoads sys) (hm : InRun m) {command : Option (List UInt8)}
    {x : Trap} (he : Regular sys m (.execute command x)) (hacc : Accepted sys command x m)
    (hargs : ∀ prog, executeChecks sys command x.uninit = some prog → prog.args = args) :
    Remembers (step sys m (.execute command x)).running args (step sys m (.execute command x)) := by
  obtain ⟨a', hr', hjobs'⟩ := inRun_step hload hm he
  obtain ⟨a, hr, -⟩ := hm
  obtain ⟨prog, i, hprog, hs⟩ | ⟨hrej, -⟩ := execute_startsFrom hr he
  · have hrun := hs.running
    obtain ⟨r, hstarted⟩ := hs.started
    refine ⟨a', hr', hjobs', ?_, fun t j hj hcall => ⟨?_, ?_⟩⟩
    · rw [hrun, hstarted.calls]
    · rw [hrun] at hcall ⊢
      exact startsFrom_job hr' hs hj (Or.inr hcall)
    · rw [hrun, hstarted.kernel, ← hargs prog hprog]
      exact stored_spawn hs.slot
  · exact absurd hacc hrej

theorem remembers_step {proc : Proc} (h : Remembers proc args m) (hload : ShellLoads sys)
    (he : Regular sys m e) : Remembers proc args (step sys m e) := by
  obtain ⟨a, hr, hjobs, hcall, hstored⟩ := h
  obtain ⟨a', hstep, hr'⟩ := step_refines hr hload he.1 he.2 (startsShell_of_inRun ⟨a, hr, hjobs⟩ e)
  have hrunning : ∀ t j, j ∈ a'.stack t → (∃ u, j ∈ a.stack u) ∨ j.proc = (step sys m e).running := by
    intro t j hj
    obtain hold | hhead := ProcessStarts.SessionStep.jobs hstep hj
    · exact Or.inl ⟨t, hold⟩
    · obtain ⟨c, hc, hrun⟩ := hr'.running
      rw [Option.mem_unique hhead hc, hrun]
      exact Or.inr rfl
  obtain ⟨prog, k, i, hk, hs⟩ | ⟨hcalls, u, c, hc, hrun⟩ := starts_or_keeps hr hjobs hload he
  · obtain ⟨r, hstarted⟩ := hs.started
    refine ⟨a', hr', fun t ht => hstep.keeps_jobs (hjobs t ht), ?_, fun t j hj hjcall => ?_⟩
    · rw [hstarted.calls]
      omega
    · have hnew : j.proc ≠ ⟨i, m.calls + 1⟩ := by
        intro hp
        rw [hp] at hjcall
        simp only at hjcall
        omega
      obtain ⟨u, hold⟩ | hrun := hrunning t j hj
      · obtain ⟨rfl, hst⟩ := hstored u j hold hjcall
        have hslot : j.proc.slot ≠ i := fun hi => hnew (startsFrom_job hr' hs hj (Or.inl hi))
        have hbase : Stored k j.proc.slot args := by
          obtain rfl | rfl := hk
          · exact hst
          · exact (keepsArguments_haltRelease m.kernel).stored hst
        refine ⟨rfl, ?_⟩
        rw [hstarted.kernel]
        exact stored_spawn_other hs.slot hslot hbase
      · rw [hs.running] at hrun
        exact absurd hrun hnew
  · refine ⟨a', hr', fun t ht => hstep.keeps_jobs (hjobs t ht), by omega, fun t j hj hjcall => ?_⟩
    have hold : ∃ u c, c ∈ a.stack u ∧ c.proc = j.proc := by
      obtain ⟨u', hold⟩ | hj' := hrunning t j hj
      · exact ⟨u', j, hold, rfl⟩
      · exact ⟨u, c, hc, by rw [hj', hrun]⟩
    obtain ⟨u', c', hc', hproc⟩ := hold
    obtain ⟨hp, hst⟩ := hstored u' c' hc' (by rw [hproc, hjcall])
    exact ⟨hproc ▸ hp, (keepsArguments_step hcalls).stored hst⟩

theorem getargs_eq {p : Int} (hown : getPcbAddr k = pcbAddr p) (hs : Stored k p args)
    (hlen : args.length ≤ bufLen) {buf : Nat} (hbuf : buf ≠ 0) (nbytes : Int) (mem : Mem) :
    getargs buf nbytes k mem =
      if nbytes < args.length then (-1, mem)
      else (0, fill mem buf (fun i => args.getD i 0) bufferSize) := by
  have hcopy : fill (fill mem buf (fun _ => 0) bufferSize) buf
      (byteAt (args ++ List.replicate (bufLen - args.length) 0)) args.length =
      fill mem buf (fun i => args.getD i 0) bufferSize := by
    funext a
    simp only [bufLen] at hlen
    by_cases hin : buf ≤ a ∧ a < buf + bufferSize
    · obtain ⟨i, rfl⟩ := Nat.exists_eq_add_of_le hin.1
      rw [fill_inside _ _ (fun i => args.getD i 0) (by omega)]
      by_cases hi : i < args.length
      · rw [fill_inside _ _ _ hi, byteAt, List.getD_append _ _ _ _ hi]
      · rw [fill_outside _ _ _ (by omega), fill_inside _ _ _ (by omega),
          List.getD_eq_default _ _ (by omega)]
    · simp only [bufferSize] at hin ⊢
      rw [fill_outside _ _ _ (by omega), fill_outside _ _ _ (by omega),
        fill_outside _ _ _ (by omega)]
  simp only [getargs, if_neg hbuf, hown, hs.1, hs.2, Int.toNat_natCast, hcopy]

/-- A program that `execute` has started with arguments reads exactly them through `getargs`,
whenever it runs and whatever happened since. -/
theorem arguments_round_trip (hload : ShellLoads sys) (hboot : BootShells sys m)
    (hgood : GoodCommand name args) {before after : List Event} {x : Trap}
    (hes : Along (step sys) (Regular sys) m
      (before ++ .execute (some (commandLine name args)) x :: after))
    (hacc : Accepted sys (some (commandLine name args)) x (run (step sys) m before))
    (hrunning : (run (step sys) m
        (before ++ .execute (some (commandLine name args)) x :: after)).running =
      (run (step sys) m (before ++ [.execute (some (commandLine name args)) x])).running)
    {buf : Nat} (hbuf : buf ≠ 0) (nbytes : Int) (mem : Mem) :
    let k := (run (step sys) m (before ++ .execute (some (commandLine name args)) x :: after)).kernel
    (args.length ≤ nbytes → (getargs buf nbytes k mem).1 = 0 ∧
      readBytes (getargs buf nbytes k mem).2 buf bufferSize =
        args ++ List.replicate (bufferSize - args.length) 0) ∧
    (nbytes < args.length → getargs buf nbytes k mem = (-1, mem)) := by
  intro k
  rw [along_append, along_cons] at hes
  rw [run_append, run_cons, run_concat] at hrunning
  have hbefore := inRun_run hload (bootShells_inRun hload hboot) hes.1
  have hstart := remembers_start hload hbefore hes.2.1 hacc fun prog => executeChecks_args hgood
  obtain ⟨a, hr, -, -, hstored⟩ := run_invariant (J := Remembers _ args) (C := Regular sys)
    (fun _ _ hm he => remembers_step hm hload he) hstart hes.2.2
  obtain ⟨j, hj, hrun⟩ := hr.running
  obtain ⟨hproc, hst⟩ := hstored _ j (mem_of_head? hj) (by rw [← hrun, hrunning])
  have hown : getPcbAddr k = pcbAddr j.proc.slot := by
    have := hr.getPcbAddr_eq
    rw [hrun] at this
    simpa only [k, run_append, run_cons] using this
  have hst' : Stored k j.proc.slot args := by
    rw [hproc]
    simpa only [k, run_append, run_cons] using hst
  have hget := getargs_eq hown hst' hgood.argsLength hbuf nbytes mem
  have hlen := hgood.argsLength
  simp only [bufLen] at hlen
  refine ⟨fun hn => ?_, fun hn => by rw [hget, if_pos hn]⟩
  rw [hget, if_neg (by omega), readBytes_fill, range_map_getD args 0 (by simp only [bufferSize]; omega)]
  exact ⟨rfl, rfl⟩

/-- The shell of terminal 2 starts "shell ab", which runs again a full turn later. -/
theorem arguments_round_trip_tiny :
    let k := (run (step tinySystem) tinyBoot ([.switchTerminal altF3] ++
      .execute (some (commandLine tinySystem.shell [97, 98])) tinyTrap ::
        [tinyTick, tinyTick, tinyTick])).kernel
    ((([97, 98] : List UInt8).length : Int) ≤ 100 → (getargs 0x8100000 100 k tinyMem).1 = 0 ∧
      readBytes (getargs 0x8100000 100 k tinyMem).2 0x8100000 bufferSize =
        [97, 98] ++ List.replicate (bufferSize - ([97, 98] : List UInt8).length) 0) ∧
    ((100 : Int) < ([97, 98] : List UInt8).length →
      getargs 0x8100000 100 k tinyMem = (-1, tinyMem)) := by
  refine arguments_round_trip tinySystem_shellLoads tinyBoot_bootShells ?_ ?_ ?_ ?_ (by decide) 100
    tinyMem
  · exact ⟨by decide, by decide +kernel, by decide, by decide +kernel⟩
  · exact ⟨⟨trivial, trivial⟩, ⟨fun _ => ⟨3, by decide, by decide⟩, fun _ => by decide⟩,
      ⟨trivial, trivial⟩, ⟨trivial, trivial⟩, ⟨trivial, trivial⟩, trivial⟩
  · exact ⟨Option.isSome_iff_exists.mp (by decide), by decide⟩
  · decide

end RedstoneOS.Arguments
