import RedstoneOS.I8259
import RedstoneOS.ExecuteEffects
import RedstoneOS.SequentialReads

namespace RedstoneOS.RtcMask

open KernelState Filesystem Execute ExecuteEffects Syscalls SequentialReads ExecuteChecks I8259
open Library.Runs

def rtcIrq : UInt32 := 0x28

structure Machine where
  kernel : Kernel
  pics : Pics

def rtcOpen (p : Pics) : Pics := enableIrq rtcIrq p

def rtcClose (p : Pics) : Pics := disableIrq rtcIrq p

/-- The call through a jump table. The functions of the other tables leave the masks alone. -/
def callDevice (ops : Option FileOps) (f : Pics → Pics) (p : Pics) : Pics :=
  if ops = some .rtc then f p else p

/-- The running process opens or closes a descriptor, starts a program or halts, or another
process of any terminal becomes the running one. -/
inductive Event
  | openFile (filename : Option (List UInt8))
  | closeFile (fd : Int)
  | execute (command : Option (List UInt8)) (uninit : Nat → UInt8) (r : Regs)
  | halt (status : UInt8) (uninit : Nat → UInt8) (r : Regs)
  | dispatch (terminalId : Int) (processes : Int → Int)

def afterExecute : ExecuteOutcome → Kernel
  | .ret _ k => k
  | .iret k => k

def afterHalt : HaltOutcome → Kernel
  | .iret k => k
  | .jump k _ _ => k

def step (sys : System) (m : Machine) : Event → Machine
  | .openFile filename =>
    let r := openCall sys filename m.kernel
    ⟨r.2, if r.1 = -1 then m.pics else callDevice (entryAt r.2 r.1).fOp rtcOpen m.pics⟩
  | .closeFile fd =>
    let r := closeCall fd m.kernel
    ⟨r.2, if r.1 = -1 then m.pics else callDevice (entryAt m.kernel fd).fOp rtcClose m.pics⟩
  | .execute command uninit r =>
    { m with kernel := afterExecute (execute sys command uninit r m.kernel) }
  | .halt status uninit r => { m with kernel := afterHalt (halt sys status uninit r m.kernel) }
  | .dispatch terminalId processes =>
    { m with kernel :=
      { m.kernel with currentTerminalId := terminalId, terminalProcessInfo := processes } }

def openedFile (k : Kernel) (process fd : Int) : FileEntry := (k.pcbs (pcbAddr process)).fileArray fd

def RtcOpened (k : Kernel) (process fd : Int) : Prop :=
  (openedFile k process fd).flags ≠ 0 ∧ (openedFile k process fd).fOp = some .rtc

/-- While an rtc descriptor is open, IRQ 8 passes both PICs. -/
def Delivered (m : Machine) : Prop :=
  (∃ process fd, RtcOpened m.kernel process fd) →
    ¬ Masked m.pics.masterPort 2 ∧ ¬ Masked m.pics.slavePort 0

def runningProcess (k : Kernel) : Int := k.terminalProcessInfo k.currentTerminalId

/-- An rtc descriptor is closed when no other one is open, in any process. -/
def LastCloser (m : Machine) : Event → Prop
  | .closeFile fd => 2 ≤ fd → fd ≤ maxFdNum → RtcOpened m.kernel (runningProcess m.kernel) fd →
      ∀ process fd', RtcOpened m.kernel process fd' →
        process = runningProcess m.kernel ∧ fd' = fd
  | _ => True

variable {sys : System} {m : Machine} {e : Event} {k k' : Kernel} {fd fd' process : Int}
  {filename : Option (List UInt8)}

theorem unmasked_open (p : Pics) :
    ¬ Masked (rtcOpen p).masterPort 2 ∧ ¬ Masked (rtcOpen p).slavePort 0 := by
  have hports : (rtcOpen p).masterPort = clearMask 2 p.masterMask ∧
      (rtcOpen p).slavePort = clearMask 32 p.slaveMask := ⟨rfl, rfl⟩
  rw [hports.1, hports.2, masked_clear (by decide), masked_clear (by decide)]
  exact ⟨fun h => h.2 rfl, fun h => h.2 rfl⟩

theorem masked_close (p : Pics) : Masked (rtcClose p).slavePort 0 := by
  have hport : (rtcClose p).slavePort = setMask 32 p.slaveMask := by
    by_cases hm : p.slaveMask = initialSlaveMask
    · simp only [rtcClose, disableIrq, if_pos hm]
      rfl
    · simp only [rtcClose, disableIrq, if_neg hm]
      rfl
  rw [hport, masked_set (by decide)]
  exact Or.inr rfl

theorem openedFile_setEntry (fd : Int) (f : FileEntry → FileEntry) (k : Kernel) (process fd' : Int) :
    openedFile (setEntry fd f k) process fd' =
      if process = runningProcess k ∧ fd' = fd then f (entryAt k fd)
      else openedFile k process fd' := by
  by_cases hp : process = runningProcess k
  · subst hp
    have hentry := entryAt_setEntry fd fd' f k
    rw [entryAt, getPcbAddr_setEntry] at hentry
    simpa only [true_and] using! hentry
  · have hne : pcbAddr process ≠ getPcbAddr k := fun h => hp (pcbAddr_injective h)
    rw [if_neg (fun h => hp h.1), openedFile, setEntry, setPcb]
    simp only [Function.update_of_ne hne]
    rfl

def OpensNone (k k' : Kernel) : Prop := ∀ process fd, RtcOpened k' process fd → RtcOpened k process fd

theorem OpensNone.trans {k'' : Kernel} (h : OpensNone k k') (h' : OpensNone k' k'') :
    OpensNone k k'' := fun process fd hopened => h process fd (h' process fd hopened)

theorem opensNone_spawn (prog : Program) (r : Regs) (k : Kernel) : OpensNone k (spawn prog r k) := by
  obtain ⟨ps, q, htake, -⟩ := takeSlot_cases k
  intro process fd hopened
  rw [RtcOpened, openedFile, spawn_eq_takeSlot prog r htake] at hopened
  by_cases hp : pcbAddr process = pcbAddr q
  · simp only [hp, Function.update_self, newPcb] at hopened
    have h0 : fd ≠ 0 := by
      rintro rfl
      simp [stdEntry] at hopened
    have h1 : fd ≠ 1 := by
      rintro rfl
      simp [stdEntry] at hopened
    rw [Function.update_of_ne h0, Function.update_of_ne h1] at hopened
    rwa [RtcOpened, openedFile, hp]
  · simp only [Function.update_of_ne hp] at hopened
    exact hopened

theorem opensNone_execute (sys : System) (command : Option (List UInt8)) (uninit : Nat → UInt8)
    (r : Regs) (k : Kernel) : OpensNone k (afterExecute (execute sys command uninit r k)) := by
  rw [execute]
  split
  · exact fun _ _ hopened => hopened
  next prog _ =>
    split
    · exact fun _ _ hopened => hopened
    · exact opensNone_spawn prog r k

theorem opensNone_haltRelease (k : Kernel) : OpensNone k (haltRelease k) := by
  intro process fd hopened
  rw [RtcOpened, openedFile, haltRelease_eq rfl] at hopened
  by_cases hp : pcbAddr process = getPcbAddr k
  · simp only [hp, Function.update_self, clearedPcb] at hopened
    split at hopened
    · exact absurd rfl hopened.1
    · rw [RtcOpened, openedFile, hp]
      exact hopened
  · simp only [Function.update_of_ne hp] at hopened
    exact hopened

/-- What a process still has open when it halts is marked as closed, without a call of `close`. -/
theorem opensNone_halt (sys : System) (status : UInt8) (uninit : Nat → UInt8) (r : Regs)
    (k : Kernel) : OpensNone k (afterHalt (halt sys status uninit r k)) := by
  refine (opensNone_haltRelease k).trans ?_
  rw [halt]
  split
  · have hshell := opensNone_execute sys (some sys.shell) uninit r (haltRelease k)
    cases hx : execute sys (some sys.shell) uninit r (haltRelease k) with
    | ret value k' =>
      rw [hx] at hshell
      exact hshell
    | iret k' =>
      rw [hx] at hshell
      exact hshell
  · exact fun _ _ hopened => hopened

theorem Delivered.of_opened (h : Delivered m) (hsub : OpensNone m.kernel k) :
    Delivered { m with kernel := k } := by
  rintro ⟨process, fd, hopen⟩
  exact h ⟨process, fd, hsub process fd hopen⟩

theorem delivered_open (h : Delivered m) (sys : System) (filename : Option (List UInt8)) :
    Delivered (step sys m (.openFile filename)) := by
  obtain hfail | ⟨fd, ops, inode, hlo, -, hopen⟩ := openCall_cases sys filename m.kernel
  · simpa only [step, hfail, if_pos] using h
  · have hne : fd ≠ -1 := by omega
    simp only [step, hopen, if_neg hne, entryAt_setEntry, if_pos]
    by_cases hrtc : ops = .rtc
    · subst hrtc
      exact fun _ => unmasked_open m.pics
    · have hother : some ops ≠ some FileOps.rtc := fun he => hrtc (Option.some.inj he)
      rw [callDevice, if_neg hother]
      refine h.of_opened fun process fd' hopened => ?_
      rw [RtcOpened, openedFile_setEntry] at hopened
      split at hopened
      · exact absurd hopened.2 hother
      · exact hopened

theorem opened_close (h : RtcOpened (setEntry fd (fun e => ⟨none, e.inode, 0, 0⟩) k) process fd') :
    RtcOpened k process fd' ∧ ¬ (process = runningProcess k ∧ fd' = fd) := by
  rw [RtcOpened, openedFile_setEntry] at h
  split at h
  · exact absurd rfl h.1
  next hne => exact ⟨h, hne⟩

theorem delivered_close (h : Delivered m) (hlast : LastCloser m (.closeFile fd)) :
    Delivered (step sys m (.closeFile fd)) := by
  obtain ⟨hfail, -⟩ | ⟨hclose, hlo, hhi, hflags⟩ := closeCall_cases fd m.kernel
  · simpa only [step, hfail, if_pos] using h
  · simp only [step, hclose]
    by_cases hrtc : (entryAt m.kernel fd).fOp = some .rtc
    · rintro ⟨process, fd', hopened⟩
      obtain ⟨hbefore, hne⟩ := opened_close hopened
      exact absurd (hlast hlo hhi ⟨hflags, hrtc⟩ process fd' hbefore) hne
    · rw [callDevice, if_neg hrtc]
      exact h.of_opened fun process fd' hopened => (opened_close hopened).1

theorem delivered_step (m : Machine) (e : Event) (h : Delivered m) (hlast : LastCloser m e) :
    Delivered (step sys m e) := by
  cases e with
  | openFile filename => exact delivered_open h sys filename
  | closeFile fd => exact delivered_close h hlast
  | execute command uninit r => exact h.of_opened (opensNone_execute sys command uninit r m.kernel)
  | halt status uninit r => exact h.of_opened (opensNone_halt sys status uninit r m.kernel)
  | dispatch terminalId processes => exact h

/-- A reader that is left behind by another's `close` waits for good. -/
theorem lost_step (m : Machine) (e : Event) (hlast : ¬ LastCloser m e) :
    ¬ Delivered (step sys m e) := by
  cases e with
  | openFile filename => exact absurd trivial hlast
  | execute command uninit r => exact absurd trivial hlast
  | halt status uninit r => exact absurd trivial hlast
  | dispatch terminalId processes => exact absurd trivial hlast
  | closeFile fd =>
    simp only [LastCloser, not_forall] at hlast
    obtain ⟨hlo, hhi, hmine, process, fd', hopened, hother⟩ := hlast
    obtain ⟨-, hbad⟩ | ⟨hclose, -⟩ := closeCall_cases fd m.kernel
    · exact absurd ⟨hlo, hhi, hmine.1⟩ hbad
    · have hrtc : (entryAt m.kernel fd).fOp = some .rtc := hmine.2
      intro hdelivered
      simp only [step, hclose] at hdelivered
      have hstill : RtcOpened (setEntry fd (fun e => ⟨none, e.inode, 0, 0⟩) m.kernel) process fd' := by
        rw [RtcOpened, openedFile_setEntry, if_neg hother]
        exact hopened
      refine (hdelivered ⟨process, fd', hstill⟩).2 ?_
      rw [if_neg (by decide), callDevice, if_pos hrtc]
      exact masked_close m.pics

/-- From a start without open rtc descriptors, the clock's interrupt gets through to all who
have it open exactly in the runs in which it is closed by the last of them. -/
theorem delivered_iff_last_closer (sys : System) (es : List Event)
    (hnone : ∀ process fd, ¬ RtcOpened m.kernel process fd) :
    (∀ pre, pre <+: es → Delivered (run (step sys) m pre)) ↔ Along (step sys) LastCloser m es := by
  refine observed_iff_along (J := Delivered) (D := fun _ _ => True)
    (fun s e h _ hlast => delivered_step s e h hlast) (fun _ h => h)
    (fun s e _ _ hlast => lost_step s e hlast) ?_ (along_of_forall (fun _ _ => trivial) m es)
  rintro ⟨process, fd, hopened⟩
  exact absurd hopened (hnone process fd)

def clockSystem : System :=
  ⟨fun a => (([(0x400000, 1), (0x400040, 114), (0x400041, 116), (0x400042, 99)] :
      List (Nat × UInt8)).lookup a).getD 0, 0x400000, [], 0x7ff000⟩

def openClock : Event := .openFile (some [114, 116, 99])

def clockStart : Machine := ⟨tinyKernel, ⟨0xFF, 0xFF, 0xFF, 0xFF⟩⟩

theorem clockStart_closed (process fd : Int) : ¬ RtcOpened clockStart.kernel process fd :=
  fun h => h.1 rfl

def inTurn : List Event := [openClock, .closeFile 2, .dispatch 0 fun _ => 1, openClock]

theorem delivered_in_turn : RtcOpened (run (step clockSystem) clockStart inTurn).kernel 1 2 ∧
    ¬ Masked (run (step clockSystem) clockStart inTurn).pics.masterPort 2 ∧
    ¬ Masked (run (step clockSystem) clockStart inTurn).pics.slavePort 0 := by
  have hopened : RtcOpened (run (step clockSystem) clockStart inTurn).kernel 1 2 := by
    unfold RtcOpened
    decide +kernel
  refine ⟨hopened, (delivered_iff_last_closer clockSystem inTurn clockStart_closed).mpr
    ⟨trivial, fun _ _ _ process fd hopened => ?_, trivial, trivial, trivial⟩
    _ (List.prefix_refl _) ⟨1, 2, hopened⟩⟩
  have hopen : openCall clockSystem (some [114, 116, 99]) tinyKernel =
      (2, setEntry 2 (fun _ => ⟨some .rtc, 0, 0, 1⟩) tinyKernel) := by
    rfl
  have hkernel : (step clockSystem clockStart openClock).kernel =
      setEntry 2 (fun _ => ⟨some .rtc, 0, 0, 1⟩) tinyKernel :=
    congrArg Prod.snd hopen
  rw [hkernel, RtcOpened, openedFile_setEntry] at hopened
  split at hopened
  next h => exact h
  next h => exact absurd rfl hopened.1

/-- Two processes have the clock open, and one of them closes it. -/
theorem masked_by_other :
    ¬ ∀ pre, pre <+: [openClock, .dispatch 0 fun _ => 1, openClock, .closeFile 2] →
      Delivered (run (step clockSystem) clockStart pre) := by
  intro h
  have hlost : ((openedFile (run (step clockSystem) clockStart
        [openClock, .dispatch 0 fun _ => 1, openClock, .closeFile 2]).kernel 0 2).flags ≠ 0 ∧
      (openedFile (run (step clockSystem) clockStart
        [openClock, .dispatch 0 fun _ => 1, openClock, .closeFile 2]).kernel 0 2).fOp = some .rtc) ∧
      (run (step clockSystem) clockStart
        [openClock, .dispatch 0 fun _ => 1, openClock, .closeFile 2]).pics.slavePort.toNat.testBit 0 =
          true := by
    decide +kernel
  exact (h _ (List.prefix_refl _) ⟨0, 2, hlost.1⟩).2 hlost.2

end RedstoneOS.RtcMask
