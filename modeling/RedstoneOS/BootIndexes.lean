import RedstoneOS.Outcomes
import RedstoneOS.SessionRuns

namespace RedstoneOS.BootIndexes

open KernelState Execute Schedule ExecuteEffects Syscalls KernelRuns SessionSteps Outcomes
open Sessions ExecuteChecks Library.Runs

variable {sys : System} {m : Machine} {e : Event} {k : Kernel}

inductive Access
  | terminalProcessInfo (t : Int)
  | processState (p : Int)
  deriving DecidableEq

def Access.InRange : Access → Prop
  | .terminalProcessInfo t => IsTerminal t
  | .processState p => IsSlot p

/-- The search loop of `execute` reads up to the first 0, which it overwrites. -/
def searchAccesses (processState : Int → Int) : List Int → List Access
  | [] => []
  | i :: is =>
    .processState i ::
      if processState i = 0 then [.processState i] else searchAccesses processState is

def executeAccesses (sys : System) (command : Option (List UInt8)) (uninit : Nat → UInt8)
    (k : Kernel) : List Access :=
  match executeChecks sys command uninit with
  | none => []
  | some _ =>
    if k.pid = 5 then []
    else .terminalProcessInfo (attachTerminal k) ::
      (searchAccesses k.processState [0, 1, 2, 3, 4, 5, 6] ++
        [.terminalProcessInfo (attachTerminal k)])

/-- `halt` reads and writes the entry of the current terminal, itself and once for each
descriptor through `get_pcb_addr`. -/
def haltAccesses (sys : System) (uninit : Nat → UInt8) (k : Kernel) : List Access :=
  let own := Access.terminalProcessInfo k.currentTerminalId
  own :: (List.replicate 6 own ++ [.processState (k.pcbs (getPcbAddr k)).PID, own] ++
    if (haltRelease k).pid = -1 then executeAccesses sys (some sys.shell) uninit (haltRelease k)
    else [])

def scheduleAccesses (sys : System) (uninit : Nat → UInt8) (r : Regs) (k : Kernel) :
    List Access :=
  let next := nextTerminal k
  .terminalProcessInfo next ::
    ((if k.terminalProcessInfo next = unused ∧ k.pid = unused then []
      else [.terminalProcessInfo k.currentTerminalId]) ++
    .terminalProcessInfo next ::
      if k.terminalProcessInfo next = unused then
        executeAccesses sys (some sys.shell) uninit (shellKernel r k)
      else [.terminalProcessInfo next])

/-- The accesses of an event. `open` and `close` make theirs through `get_pcb_addr`. So do `read`,
`write` and `getargs`, which are no events here: theirs are those of `close`. -/
def accesses (sys : System) (m : Machine) : Event → List Access
  | .tick t x => scheduleAccesses sys x.uninit (entryRegs m t) m.kernel
  | .switchTerminal _ => []
  | .execute command x => executeAccesses sys command x.uninit m.kernel
  | .halt _ x => haltAccesses sys x.uninit m.kernel
  | .openFile filename =>
    if filename = none then [] else [.terminalProcessInfo m.kernel.currentTerminalId]
  | .closeFile fd =>
    if fd < 2 ∨ maxFdNum < fd then [] else [.terminalProcessInfo m.kernel.currentTerminalId]

def InRange (sys : System) (m : Machine) (e : Event) : Prop :=
  ∀ a, a ∈ accesses sys m e → a.InRange

/-- Before the first tick no process is started and none makes a call, and `halt` is called
only where the scheduled terminal has a process. -/
def Guarded (sys : System) (m : Machine) : Event → Prop
  | .tick _ _ => True
  | .switchTerminal _ => True
  | .execute command x => m.kernel.currentTerminalId = unused → ¬ Accepted sys command x m
  | .halt _ _ => m.kernel.currentTerminalId ≠ unused ∧
      m.kernel.terminalProcessInfo m.kernel.currentTerminalId ≠ unused
  | .openFile _ => m.kernel.currentTerminalId ≠ unused
  | .closeFile _ => m.kernel.currentTerminalId ≠ unused

structure Waiting (k : Kernel) : Prop where
  current : k.currentTerminalId = unused
  next : k.nextScheTerminal = 0
  ready : k.scheReady = 1
  pid : k.pid = unused
  idle : ∀ t, IsTerminal t → k.terminalProcessInfo t = unused

/-- The slots in `built` hold PCBs that `execute` has filled in; terminals and parents name
only these. -/
structure Indexed (built : Int → Prop) (k : Kernel) : Prop where
  scheduled : IsTerminal k.currentTerminalId ∧ k.nextScheTerminal = k.currentTerminalId ∨ Waiting k
  displayed : IsTerminal k.terminalId
  slots : ∀ p, built p → IsSlot p
  pid : k.pid = -1 ∨ built k.pid
  terminals : ∀ t, IsTerminal t → k.terminalProcessInfo t = -1 ∨ built (k.terminalProcessInfo t)
  own : ∀ p, built p → (k.pcbs (pcbAddr p)).PID = p
  parents : ∀ p, built p → (k.pcbs (pcbAddr p)).parent = -1 ∨ built (k.pcbs (pcbAddr p)).parent

theorem waiting_initial (k : Kernel) (kstack : Int → Suspended) :
    Waiting (initial k kstack).kernel := by
  refine ⟨rfl, rfl, rfl, rfl, fun t ht => ?_⟩
  simp only [initial, bootKernel, initializeSchedule, if_pos ht]

theorem indexed_initial (k : Kernel) (kstack : Int → Suspended) :
    Indexed (fun _ => False) (initial k kstack).kernel where
  scheduled := Or.inr (waiting_initial k kstack)
  displayed := by
    change IsTerminal 0
    decide
  slots p hp := hp.elim
  pid := Or.inl rfl
  terminals t ht := Or.inl ((waiting_initial k kstack).idle t ht)
  own p hp := hp.elim
  parents p hp := hp.elim

variable {built : Int → Prop}

theorem isTerminal_attach (hc : IsTerminal k.currentTerminalId) (hd : IsTerminal k.terminalId) :
    IsTerminal (attachTerminal k) := by
  rw [attachTerminal]
  split
  · exact hc
  · exact hd

theorem Indexed.spawn (h : Indexed built k) (hc : IsTerminal k.currentTerminalId)
    (hn : k.nextScheTerminal = k.currentTerminalId) (prog : Program) (r : Regs) :
    ∃ built', Indexed built' (spawn prog r k) := by
  obtain ⟨ps, q, htake, hq⟩ := takeSlot_cases k
  have hparent := h.terminals _ (isTerminal_attach hc h.displayed)
  -- The slot that is filled, unless it is -1.
  refine ⟨fun p => built p ∨ p = q ∧ IsSlot q, ?_⟩
  have hpid : q = -1 ∨ IsSlot q := by
    obtain rfl | hq := hq
    · exact h.pid.imp_right (h.slots _)
    · exact Or.inr hq
  rw [spawn_eq_takeSlot prog r htake]
  refine ⟨Or.inl ⟨hc, hn⟩, h.displayed, ?_, ?_, ?_, ?_, ?_⟩
  · rintro p (hp | ⟨rfl, hp⟩)
    · exact h.slots p hp
    · exact hp
  · exact hpid.imp_right fun hs => Or.inr ⟨rfl, hs⟩
  · intro t ht
    by_cases hat : t = attachTerminal k
    · simp only [hat, Function.update_self]
      exact hpid.imp_right fun hs => Or.inr ⟨trivial, hs⟩
    · simp only [Function.update_of_ne hat]
      exact (h.terminals t ht).imp_right Or.inl
  · intro p hp
    by_cases hpq : p = q
    · have hslot : IsSlot q := by
        obtain hp | ⟨-, hp⟩ := hp
        · exact hpq ▸ h.slots p hp
        · exact hp
      simp only [hpq, Function.update_self, newPcb]
      simp only [IsSlot] at hslot
      omega
    · have hne : pcbAddr p ≠ pcbAddr q := fun he => hpq (pcbAddr_inj.mp he)
      simp only [Function.update_of_ne hne]
      exact h.own p (hp.resolve_right fun hx => hpq hx.1)
  · intro p hp
    by_cases hpq : p = q
    · simp only [hpq, Function.update_self, newPcb]
      exact hparent.imp_right Or.inl
    · have hne : pcbAddr p ≠ pcbAddr q := fun he => hpq (pcbAddr_inj.mp he)
      simp only [Function.update_of_ne hne]
      exact (h.parents p (hp.resolve_right fun hx => hpq hx.1)).imp_right Or.inl

theorem Indexed.frame {k' : Kernel} (h : Indexed built k)
    (hs : IsTerminal k'.currentTerminalId ∧ k'.nextScheTerminal = k'.currentTerminalId ∨ Waiting k')
    (hd : IsTerminal k'.terminalId) (hpid : k'.pid = k.pid)
    (htpi : k'.terminalProcessInfo = k.terminalProcessInfo)
    (hpcbs : ∀ addr, SameLinks (k.pcbs addr) (k'.pcbs addr)) : Indexed built k' where
  scheduled := hs
  displayed := hd
  slots := h.slots
  pid := hpid ▸ h.pid
  terminals t ht := htpi ▸ h.terminals t ht
  own p hp := (hpcbs _).PID.trans (h.own p hp)
  parents p hp := (hpcbs _).parent ▸ h.parents p hp

theorem Indexed.next (h : Indexed built k) : IsTerminal (nextTerminal k) := by
  obtain ⟨hc, hn⟩ | hw := h.scheduled
  · exact (isTerminal_next hc hn).1
  · rw [nextTerminal, hw.next, hw.current]
    decide

theorem sameLinks_saveContext (r : Regs) (k : Kernel) (addr : Int) :
    SameLinks (k.pcbs addr) ((saveContext r k).pcbs addr) := by
  rw [saveContext_eq]
  by_cases ha : addr = saveAddr k
  · simp only [ha, Function.update_self]
    exact ⟨rfl, rfl, rfl, rfl, rfl, rfl⟩
  · simp only [Function.update_of_ne ha]
    exact .refl _

theorem Indexed.shellKernel (h : Indexed built k) (r : Regs) :
    Indexed built (shellKernel r k) :=
  h.frame (Or.inl ⟨h.next, rfl⟩) h.displayed rfl rfl (sameLinks_saveContext r k)

theorem Indexed.resumeKernel (h : Indexed built k) (r : Regs) :
    Indexed built (resumeKernel r k) :=
  h.frame (Or.inl ⟨h.next, rfl⟩) h.displayed rfl rfl (sameLinks_saveContext r k)

theorem Indexed.running (h : Indexed built k) (hc : IsTerminal k.currentTerminalId)
    (hu : k.terminalProcessInfo k.currentTerminalId ≠ unused) :
    built (k.terminalProcessInfo k.currentTerminalId) ∧
      (k.pcbs (getPcbAddr k)).PID = k.terminalProcessInfo k.currentTerminalId ∧
      ((k.pcbs (getPcbAddr k)).parent = -1 ∨ built (k.pcbs (getPcbAddr k)).parent) := by
  have hb := (h.terminals _ hc).resolve_left hu
  exact ⟨hb, h.own _ hb, h.parents _ hb⟩

theorem Indexed.haltRelease (h : Indexed built k) (hc : IsTerminal k.currentTerminalId)
    (hn : k.nextScheTerminal = k.currentTerminalId)
    (hu : k.terminalProcessInfo k.currentTerminalId ≠ unused) : Indexed built (haltRelease k) := by
  obtain ⟨-, -, hparent⟩ := h.running hc hu
  have hpcb := sameLinks_haltRelease k
  have hrel := haltRelease_eq (k := k) rfl
  refine ⟨Or.inl ?_, ?_, h.slots, ?_, fun t ht => ?_, fun p hp => (hpcb _).PID.trans (h.own p hp),
    fun p hp => (hpcb _).parent ▸ h.parents p hp⟩
  · rw [hrel]
    exact ⟨hc, hn⟩
  · rw [hrel]
    exact h.displayed
  · rw [haltRelease_pid]
    exact hparent
  · rw [hrel]
    by_cases ht' : t = k.currentTerminalId
    · simp only [ht', Function.update_self]
      exact hparent
    · simp only [Function.update_of_ne ht']
      exact h.terminals t ht

theorem Indexed.active (h : Indexed built k) (hne : k.currentTerminalId ≠ unused) :
    IsTerminal k.currentTerminalId ∧ k.nextScheTerminal = k.currentTerminalId :=
  h.scheduled.resolve_right fun hw => hne hw.current

theorem Indexed.setEntry (h : Indexed built k) (hne : k.currentTerminalId ≠ unused) (fd : Int)
    (f : FileEntry → FileEntry) : Indexed built (setEntry fd f k) :=
  h.frame (Or.inl (h.active hne)) h.displayed rfl rfl (quiet_setEntry fd f k).links

/-- Every event that meets the condition keeps the table indexed. -/
theorem indexed_step (h : Indexed built m.kernel) (he : Guarded sys m e) :
    ∃ built', Indexed built' (step sys m e).kernel := by
  cases e with
  | tick t x =>
    obtain ⟨-, ⟨prog, hs⟩ | ⟨-, tss, hk⟩⟩ | ⟨-, -, hk⟩ := tick_step sys t x m
    · rw [hs.kernel]
      exact (h.shellKernel _).spawn h.next rfl prog _
    · rw [hk]
      exact ⟨built, (h.shellKernel _).frame (Or.inl ⟨h.next, rfl⟩) h.displayed rfl rfl
        fun _ => .refl _⟩
    · rw [hk]
      exact ⟨built, h.resumeKernel _⟩
  | switchTerminal target =>
    refine ⟨built, h.frame ?_ ?_ rfl rfl fun _ => .refl _⟩
    · exact h.scheduled.imp_right fun hw => ⟨hw.current, hw.next, hw.ready, hw.pid, hw.idle⟩
    · have hlt := target.isLt
      simp only [step, switchTerminal, switchVideoPd, IsTerminal, terminalMaximum]
      omega
  | execute command x =>
    obtain ⟨prog, hprog, hpid, hs⟩ | ⟨-, hm⟩ := execute_step sys command x m
    · obtain ⟨hc, hn⟩ := h.active fun hu => he hu ⟨⟨prog, hprog⟩, hpid⟩
      rw [hs.kernel]
      exact h.spawn hc hn prog _
    · rw [hm]
      exact ⟨built, h⟩
  | halt status x =>
    obtain ⟨hc, hn⟩ := h.active he.1
    have hrel := h.haltRelease hc hn he.2
    have hsched : IsTerminal (haltRelease m.kernel).currentTerminalId ∧
        (haltRelease m.kernel).nextScheTerminal = (haltRelease m.kernel).currentTerminalId := by
      rw [haltRelease_eq rfl]
      exact ⟨hc, hn⟩
    obtain ⟨-, prog, hs⟩ | ⟨-, hk⟩ := halt_step sys status x m
    · rw [hs.kernel]
      exact hrel.spawn hsched.1 hsched.2 prog _
    · rw [hk]
      exact ⟨built, hrel.frame (Or.inl hsched) hrel.displayed rfl rfl fun _ => .refl _⟩
  | openFile filename =>
    exact ⟨built, openCall_keeps h (h.setEntry he) sys filename⟩
  | closeFile fd =>
    exact ⟨built, closeCall_keeps h (h.setEntry he) fd⟩

theorem searchAccesses_inRange (ps : Int → Int) {is : List Int} (his : ∀ i, i ∈ is → IsSlot i) :
    ∀ a, a ∈ searchAccesses ps is → a.InRange := by
  induction is with
  | nil => simp [searchAccesses]
  | cons i is ih =>
    have hi : IsSlot i := his i (by simp)
    intro a ha
    rw [searchAccesses] at ha
    obtain rfl | ha := List.mem_cons.mp ha
    · exact hi
    · split at ha
      · rw [List.mem_singleton.mp ha]
        exact hi
      · exact ih (fun j hj => his j (List.mem_cons_of_mem _ hj)) a ha

theorem executeAccesses_inRange (hc : IsTerminal k.currentTerminalId) (hd : IsTerminal k.terminalId)
    (command : Option (List UInt8)) (uninit : Nat → UInt8) :
    ∀ a, a ∈ executeAccesses sys command uninit k → a.InRange := by
  have hat : (Access.terminalProcessInfo (attachTerminal k)).InRange := isTerminal_attach hc hd
  intro a ha
  rw [executeAccesses] at ha
  split at ha
  · simp at ha
  · split at ha
    · simp at ha
    · obtain rfl | ha := List.mem_cons.mp ha
      · exact hat
      · obtain ha | ha := List.mem_append.mp ha
        · exact searchAccesses_inRange _ (by decide) a ha
        · rw [List.mem_singleton.mp ha]
          exact hat

theorem scheduleAccesses_inRange (h : Indexed built k) (uninit : Nat → UInt8) (r : Regs) :
    ∀ a, a ∈ scheduleAccesses sys uninit r k → a.InRange := by
  have hnext : (Access.terminalProcessInfo (nextTerminal k)).InRange := h.next
  intro a ha
  rw [scheduleAccesses] at ha
  obtain rfl | ha := List.mem_cons.mp ha
  · exact hnext
  · obtain ha | ha := List.mem_append.mp ha
    · split at ha
      · simp at ha
      · rename_i hbusy
        rw [List.mem_singleton.mp ha]
        -- Before the first tick this entry is not looked at.
        obtain ⟨hc, -⟩ | hw := h.scheduled
        · exact hc
        · exact absurd ⟨hw.idle _ h.next, hw.pid⟩ hbusy
    · obtain rfl | ha := List.mem_cons.mp ha
      · exact hnext
      · split at ha
        · exact executeAccesses_inRange (k := shellKernel r k) h.next h.displayed _ _ a ha
        · rw [List.mem_singleton.mp ha]
          exact hnext

theorem haltAccesses_inRange (h : Indexed built k) (hc : IsTerminal k.currentTerminalId)
    (hn : k.nextScheTerminal = k.currentTerminalId)
    (hu : k.terminalProcessInfo k.currentTerminalId ≠ unused) (uninit : Nat → UInt8) :
    ∀ a, a ∈ haltAccesses sys uninit k → a.InRange := by
  obtain ⟨hb, hpid, -⟩ := h.running hc hu
  have hslot : IsSlot (k.pcbs (getPcbAddr k)).PID := hpid.symm ▸ h.slots _ hb
  have hown : (Access.terminalProcessInfo k.currentTerminalId).InRange := hc
  intro a ha
  rw [haltAccesses] at ha
  obtain rfl | ha := List.mem_cons.mp ha
  · exact hown
  · obtain ha | ha := List.mem_append.mp ha
    · obtain ha | ha := List.mem_append.mp ha
      · rw [List.eq_of_mem_replicate ha]
        exact hown
      · simp only [List.mem_cons, List.not_mem_nil, or_false] at ha
        obtain rfl | rfl := ha
        · exact hslot
        · exact hown
    · split at ha
      · refine executeAccesses_inRange ?_ (h.haltRelease hc hn hu).displayed _ _ a ha
        rw [haltRelease_eq rfl]
        exact hc
      · simp at ha

theorem inRange_of_indexed (h : Indexed built m.kernel) (he : Guarded sys m e) :
    InRange sys m e := by
  intro a ha
  cases e with
  | tick t x => exact scheduleAccesses_inRange h _ _ a ha
  | switchTerminal target => simp [accesses] at ha
  | execute command x =>
    by_cases hacc : Accepted sys command x m
    · exact executeAccesses_inRange (h.active fun hu => he hu hacc).1 h.displayed _ _ a ha
    · simp only [accesses, executeAccesses] at ha
      split at ha
      · simp at ha
      · rename_i prog hprog
        rw [if_pos (by_contra fun hpid => hacc ⟨⟨prog, hprog⟩, hpid⟩)] at ha
        simp at ha
  | halt status x =>
    obtain ⟨hc, hn⟩ := h.active he.1
    exact haltAccesses_inRange h hc hn he.2 _ a ha
  | openFile filename =>
    simp only [accesses] at ha
    split at ha
    · simp at ha
    · rw [List.mem_singleton.mp ha]
      exact (h.active he).1
  | closeFile fd =>
    simp only [accesses] at ha
    split at ha
    · simp at ha
    · rw [List.mem_singleton.mp ha]
      exact (h.active he).1

/-- In every run from boot in which the first tick precedes the first process and its calls,
and no `halt` is called for a terminal without a process, all indexes are in range. -/
theorem indexes_in_range (k : Kernel) (kstack : Int → Suspended) (es : List Event)
    (h : Along (step sys) (Guarded sys) (initial k kstack) es) :
    Along (step sys) (InRange sys) (initial k kstack) es :=
  along_of_invariant (J := fun m => ∃ built, Indexed built m.kernel)
    (fun _ _ ⟨_, hm⟩ he => indexed_step hm he) (fun _ _ ⟨_, hm⟩ he => inRange_of_indexed hm he)
    ⟨_, indexed_initial k kstack⟩ h

theorem indexes_in_range_tiny :
    Along (step tinySystem) (InRange tinySystem) tinyInitial
      [tinyTick, tinyExecute, tinyTick, .halt 7 tinyTrap] :=
  indexes_in_range tinyKernel _ _
    ⟨trivial, fun h => absurd h (by decide), trivial, ⟨by decide, by decide⟩, trivial⟩

theorem early_execute_out_of_range (hw : Waiting m.kernel) {command : Option (List UInt8)} {x : Trap}
    (hacc : Accepted sys command x m) : ¬ InRange sys m (.execute command x) := by
  obtain ⟨⟨prog, hprog⟩, hpid⟩ := hacc
  intro h
  have hmem : Access.terminalProcessInfo unused ∈ accesses sys m (.execute command x) := by
    simp only [accesses, executeAccesses, hprog, if_neg hpid, attachTerminal, hw.ready, hw.current]
    exact List.mem_cons_self
  exact absurd (h _ hmem) (by change ¬ IsTerminal unused; decide)

/-- The boot code runs `execute("shell")` before the first tick. -/
theorem boot_execute_out_of_range : ¬ InRange tinySystem tinyInitial tinyExecute :=
  early_execute_out_of_range (waiting_initial _ _) ⟨tinySystem_shellLoads _, by decide⟩

def strayInitial : Machine :=
  initial { tinyKernel with pcbs := fun addr => { tinyKernel.pcbs addr with PID := 200 } }
    fun _ => ⟨⟨-1, 0⟩, none⟩

/-- The root shell of terminal 2 has halted while terminal 0 is displayed, so that its
successor runs without being the process of terminal 2. -/
def strayHalted : Machine :=
  run (step tinySystem) strayInitial [tinyTick, tinyTick, tinyTick, .halt 7 tinyTrap]

theorem halt_without_process_out_of_range :
    ¬ InRange tinySystem strayHalted (.halt 7 tinyTrap) := by
  intro h
  have hpid : (strayHalted.kernel.pcbs (getPcbAddr strayHalted.kernel)).PID = 200 := by
    decide +kernel
  have hmem : Access.processState 200 ∈ accesses tinySystem strayHalted (.halt 7 tinyTrap) := by
    rw [accesses, haltAccesses, hpid]
    simp
  exact absurd (h _ hmem) (by change ¬ IsSlot 200; decide)

end RedstoneOS.BootIndexes
