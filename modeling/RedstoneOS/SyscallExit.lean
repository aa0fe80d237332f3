import RedstoneOS.Library.Runs
import Mathlib.Logic.Function.Basic

namespace RedstoneOS.SyscallExit

open Library.Runs

/-- Where a process is. Every phase after `handler` is one instruction of the end of
`systemcall_wrapper` further. -/
inductive Phase
  | absent
  | user
  | handler (number : Int)
  | returned
  | saved
  | flagsPopped
  | popped
  | loaded
  deriving DecidableEq

/-- `own` is what the handler of the process returned in its latest system call. -/
structure Proc where
  phase : Phase
  eax : Int
  number : Int
  interrupts : Bool
  own : Int

variable {ι : Type*} [DecidableEq ι]

structure Exit (ι : Type*) where
  proc : ι
  own : Int
  found : Int
  deriving DecidableEq

structure State (ι : Type*) where
  procs : ι → Proc
  running : ι
  saveEax : Int
  exits : List (Exit ι)

inductive Event (ι : Type*)
  | enter (number : Int)
  | sti
  | handlerReturn (value : Int)
  | store
  | popfl
  | popal
  | load
  | iret
  | tick (next : ι)
  | start (child : ι)
  | leave (next : ι)

def executeNumber : Int := 2
def haltNumber : Int := 1
def readNumber : Int := 3

def fresh : Proc := ⟨.user, 0, 0, true, 0⟩

def enterHandler (number : Int) (p : Proc) : Proc :=
  { p with phase := .handler number, eax := number, number := number, interrupts := false }

def setRunning (p : Proc) (s : State ι) : State ι :=
  { s with procs := Function.update s.procs s.running p }

/-- The switch to a process: one that does not exist yet is started, one that satisfies the
condition goes on. -/
def switchTo (next : ι) (resumes : Proc → Bool) (s : State ι) : State ι :=
  if (s.procs next).phase = .absent then
    { s with procs := Function.update s.procs next fresh, running := next }
  else if resumes (s.procs next) then { s with running := next }
  else s

/-- One instruction of the running process, or a tick. An event that is not possible in a
state changes nothing. `read` begins with `sti`, and `halt` does not return. -/
def step (s : State ι) (e : Event ι) : State ι :=
  let p := s.procs s.running
  match e with
  | .enter number =>
    if p.phase = .user then
      if number < 1 ∨ 12 < number then setRunning { p with eax := -1 } s
      else setRunning (enterHandler number p) s
    else s
  | .sti => if p.phase = .handler readNumber then setRunning { p with interrupts := true } s else s
  | .handlerReturn value =>
    if p.phase = .handler p.number ∧ p.number ≠ haltNumber ∧
        (p.number = readNumber → p.interrupts) then
      setRunning { p with phase := .returned, eax := value, own := value } s
    else s
  | .store =>
    if p.phase = .returned then
      { setRunning { p with phase := .saved } s with saveEax := p.eax }
    else s
  | .popfl =>
    if p.phase = .saved then setRunning { p with phase := .flagsPopped, interrupts := false } s
    else s
  | .popal =>
    if p.phase = .flagsPopped then setRunning { p with phase := .popped, eax := p.number } s else s
  | .load =>
    if p.phase = .popped then setRunning { p with phase := .loaded, eax := s.saveEax } s else s
  | .iret =>
    if p.phase = .loaded then
      { setRunning { p with phase := .user, interrupts := true } s with
        exits := ⟨s.running, p.own, p.eax⟩ :: s.exits }
    else s
  | .tick next => if p.interrupts then switchTo next (fun q => q.interrupts) s else s
  | .start child =>
    if p.phase = .handler executeNumber then switchTo child (fun _ => false) s else s
  | .leave next =>
    if p.phase = .handler haltNumber then
      switchTo next (fun q => q.phase = .handler executeNumber)
        (setRunning { p with phase := .absent, interrupts := false } s)
    else s

/-- All processes run user code or do not exist, and no system call has been made. -/
structure Initial (s : State ι) : Prop where
  phase : ∀ q, (s.procs q).phase = .absent ∨ (s.procs q).phase = .user
  exits : s.exits = []

/-- A process stores its result while every process that a tick interrupted between its own
store and its `popfl` returns the same value. -/
def StoresSame (s : State ι) : Event ι → Prop
  | .store => (s.procs s.running).phase = .returned → ∀ q, q ≠ s.running →
      (s.procs q).phase = .saved → (s.procs q).own = (s.procs s.running).eax
  | _ => True

def Late (phase : Phase) : Prop := phase = .flagsPopped ∨ phase = .popped ∨ phase = .loaded

structure ProcOk (p : Proc) (saveEax : Int) : Prop where
  returned : p.phase = .returned → p.eax = p.own
  saved : p.phase = .saved → saveEax = p.own
  late : Late p.phase → p.interrupts = false ∧ saveEax = p.own
  loaded : p.phase = .loaded → p.eax = p.own

structure Inv (s : State ι) : Prop where
  procs : ∀ q, ProcOk (s.procs q) s.saveEax
  alone : ∀ q, Late (s.procs q).phase → q = s.running
  preempted : ∀ q, q ≠ s.running → (s.procs q).phase = .saved → (s.procs q).interrupts = true
  exits : ∀ r ∈ s.exits, r.found = r.own

variable {s : State ι} {es : List (Event ι)}

omit [DecidableEq ι] in
theorem inv_initial (h : Initial s) : Inv s := by
  have hphase : ∀ q ph, (s.procs q).phase = ph → ph = .absent ∨ ph = .user :=
    fun q ph he => he ▸ h.phase q
  refine ⟨fun q => ⟨fun he => ?_, fun he => ?_, fun he => ?_, fun he => ?_⟩, fun q he => ?_,
    fun q _ he => ?_, by simp [h.exits]⟩
  · simpa using hphase q _ he
  · simpa using hphase q _ he
  · rcases he with he | he | he <;> simpa using hphase q _ he
  · simpa using hphase q _ he
  · rcases he with he | he | he <;> simpa using hphase q _ he
  · simpa using hphase q _ he

theorem inv_move (h : Inv s) {p : Proc} {v : Int} {exits : List (Exit ι)} (hp : ProcOk p v)
    (hothers : ∀ q, q ≠ s.running → (s.procs q).phase = .saved → v = (s.procs q).own)
    (hexits : ∀ r ∈ exits, r.found = r.own) :
    Inv { procs := Function.update s.procs s.running p, running := s.running, saveEax := v,
          exits := exits } where
  procs q := by
    by_cases hq : q = s.running
    · subst hq
      simpa only [Function.update_self] using hp
    · have hlate : ¬ Late (s.procs q).phase := fun hl => hq (h.alone q hl)
      simp only [Function.update_of_ne hq]
      exact ⟨(h.procs q).returned, hothers q hq, fun hl => absurd hl hlate, (h.procs q).loaded⟩
  alone q hl := by
    by_contra hne
    have hq : q ≠ s.running := hne
    simp only [Function.update_of_ne hq] at hl
    exact hq (h.alone q hl)
  preempted q hne hs := by
    have hq : q ≠ s.running := hne
    simp only [Function.update_of_ne hq] at hs ⊢
    exact h.preempted q hq hs
  exits := hexits

theorem inv_setRunning (h : Inv s) {p : Proc} (hp : ProcOk p s.saveEax) :
    Inv (setRunning p s) :=
  inv_move h hp (fun q _ hq => (h.procs q).saved hq) h.exits

theorem procOk_of_early {p : Proc} {v : Int} (hr : p.phase ≠ .returned) (hs : p.phase ≠ .saved)
    (hl : ¬ Late p.phase) : ProcOk p v where
  returned h := absurd h hr
  saved h := absurd h hs
  late h := absurd h hl
  loaded h := absurd (Or.inr (Or.inr h)) hl

/-- Control can move to another process where the one that gives it up is not on its way out
with interrupts off. -/
theorem inv_switchTo (h : Inv s) {next : ι} {resumes : Proc → Bool}
    (hlate : ¬ Late (s.procs s.running).phase)
    (hsaved : (s.procs s.running).phase = .saved → (s.procs s.running).interrupts = true) :
    Inv (switchTo next resumes s) := by
  have hnone : ∀ q, ¬ Late (s.procs q).phase := by
    intro q hl
    exact hlate (h.alone q hl ▸ hl)
  have hpre : ∀ q, (s.procs q).phase = .saved → (s.procs q).interrupts = true := by
    intro q hs
    by_cases hq : q = s.running
    · subst hq
      exact hsaved hs
    · exact h.preempted q hq hs
  rw [switchTo]
  split
  · refine ⟨fun q => ?_, fun q hl => ?_, fun q hq hs => ?_, h.exits⟩
    · by_cases hq : q = next
      · subst hq
        simp only [Function.update_self]
        exact procOk_of_early (by decide) (by decide) (by simp [fresh, Late])
      · simp only [Function.update_of_ne hq]
        exact h.procs q
    · by_contra hq
      simp only [Function.update_of_ne hq] at hl
      exact hnone q hl
    · simp only [Function.update_of_ne hq] at hs ⊢
      exact hpre q hs
  · split
    · exact ⟨h.procs, fun q hl => absurd hl (hnone q), fun q _ hs => hpre q hs, h.exits⟩
    · exact h

theorem inv_step (h : Inv s) {e : Event ι} (he : StoresSame s e) : Inv (step s e) := by
  have hp := h.procs s.running
  cases e with
  | enter number =>
    simp only [step]
    split
    · next hphase =>
      split
      · refine inv_setRunning h (procOk_of_early ?_ ?_ ?_) <;> simp [hphase, Late]
      · refine inv_setRunning h (procOk_of_early ?_ ?_ ?_) <;> simp [enterHandler, Late]
    · exact h
  | sti =>
    simp only [step]
    split
    · next hphase =>
      refine inv_setRunning h (procOk_of_early ?_ ?_ ?_) <;> simp [hphase, Late]
    · exact h
  | handlerReturn value =>
    simp only [step]
    split
    · refine inv_setRunning h ⟨fun _ => rfl, ?_, ?_, ?_⟩ <;> simp [Late]
    · exact h
  | store =>
    simp only [step]
    split
    · next hphase =>
      refine inv_move h ⟨?_, fun _ => hp.returned hphase, ?_, ?_⟩ ?_ h.exits
      · simp
      · simp [Late]
      · simp
      · exact fun q hq hs => (he hphase q hq hs).symm
    · exact h
  | popfl =>
    simp only [step]
    split
    · next hphase =>
      refine inv_setRunning h ⟨?_, ?_, fun _ => ⟨rfl, hp.saved hphase⟩, ?_⟩ <;> simp
    · exact h
  | popal =>
    simp only [step]
    split
    · next hphase =>
      have hl := hp.late (Or.inl hphase)
      refine inv_setRunning h ⟨?_, ?_, fun _ => hl, ?_⟩ <;> simp
    · exact h
  | load =>
    simp only [step]
    split
    · next hphase =>
      have hl := hp.late (Or.inr (Or.inl hphase))
      refine inv_setRunning h ⟨?_, ?_, fun _ => hl, fun _ => hl.2⟩ <;> simp
    · exact h
  | iret =>
    simp only [step]
    split
    · next hphase =>
      refine inv_move h (procOk_of_early ?_ ?_ ?_) (fun q _ hq => (h.procs q).saved hq) ?_
      · simp
      · simp
      · simp [Late]
      · intro r hr
        obtain rfl | hr := List.mem_cons.mp hr
        · exact hp.loaded hphase
        · exact h.exits r hr
    · exact h
  | tick next =>
    simp only [step]
    split
    · next hon =>
      refine inv_switchTo h (fun hl => ?_) fun _ => hon
      rw [(hp.late hl).1] at hon
      cases hon
    · exact h
  | start child =>
    simp only [step]
    split
    · next hphase =>
      refine inv_switchTo h ?_ ?_ <;> simp [hphase, Late]
    · exact h
  | leave next =>
    simp only [step]
    split
    · next hphase =>
      refine inv_switchTo (inv_setRunning h (procOk_of_early ?_ ?_ ?_)) ?_ ?_ <;>
        simp [setRunning, Late]
    · exact h

def wayOut : List (Event ι) := [.popfl, .popal, .load, .iret]

theorem run_wayOut (h : (s.procs s.running).phase = .saved) :
    run step s wayOut =
      { procs := Function.update s.procs s.running
          { s.procs s.running with phase := .user, eax := s.saveEax, interrupts := true }
        running := s.running
        saveEax := s.saveEax
        exits := ⟨s.running, (s.procs s.running).own, s.saveEax⟩ :: s.exits } := by
  simp [wayOut, step, setRunning, h]

/-- A store that breaks the condition can go on to a process that finds the value of another. -/
theorem clobbered_exit (h : Inv s) {e : Event ι} (he : ¬ StoresSame s e) :
    ∃ more, ∃ r ∈ (run step s (e :: more)).exits, r.found ≠ r.own := by
  cases e with
  | store =>
    simp only [StoresSame, Classical.not_imp, not_forall] at he
    obtain ⟨hphase, q, hq, hsaved, hown⟩ := he
    have hon := h.preempted q hq hsaved
    have hstore : step s .store =
        { setRunning { s.procs s.running with phase := .saved } s with
          saveEax := (s.procs s.running).eax } := if_pos hphase
    refine ⟨wayOut ++ .tick q :: wayOut, ⟨q, (s.procs q).own, (s.procs s.running).eax⟩, ?_,
      fun hfound => hown hfound.symm⟩
    rw [run_cons, run_append, hstore, run_wayOut (by simp [setRunning]), run_cons]
    have htick : ∀ s' : State ι, (s'.procs s'.running).interrupts = true →
        (s'.procs q).phase = .saved → (s'.procs q).interrupts = true →
        step s' (.tick q) = { s' with running := q } := by
      intro s' hrun hphase' hq'
      simp [step, switchTo, hrun, hphase', hq']
    rw [htick _ (by simp) (by simp [setRunning, hq, hsaved]) (by simp [setRunning, hq, hon]),
      run_wayOut (by simp [setRunning, hq, hsaved])]
    simp [setRunning, hq]
  | enter => exact absurd trivial he
  | sti => exact absurd trivial he
  | handlerReturn => exact absurd trivial he
  | popfl => exact absurd trivial he
  | popal => exact absurd trivial he
  | load => exact absurd trivial he
  | iret => exact absurd trivial he
  | tick => exact absurd trivial he
  | start => exact absurd trivial he
  | leave => exact absurd trivial he

/-- For every set of processes and every interleaving, the value found in EAX is that of the
process's own handler as long as no store hits an interrupted process with another value, and
a run in which one does can go on to a wrong value. -/
theorem found_own_of_storesSame (hs : Initial s) (es : List (Event ι)) :
    (Along step StoresSame s es → ∀ r ∈ (run step s es).exits, r.found = r.own) ∧
      (¬ Along step StoresSame s es →
        ∃ pre e more, pre ++ [e] <+: es ∧
          ∃ r ∈ (run step s (pre ++ e :: more)).exits, r.found ≠ r.own) := by
  constructor
  · intro hes
    exact (run_invariant (J := Inv) (fun _ _ hm he => inv_step hm he) (inv_initial hs) hes).exits
  · intro hes
    obtain ⟨pre, e, post, rfl, hpre, he⟩ := first_failure hes
    have hinv := run_invariant (J := Inv) (fun _ _ hm he => inv_step hm he) (inv_initial hs) hpre
    obtain ⟨more, r, hr, hne⟩ := clobbered_exit hinv he
    rw [← run_append] at hr
    exact ⟨pre, e, more, ⟨post, by simp⟩, r, hr, hne⟩

def twoProcs : State (Fin 2) := ⟨fun _ => fresh, 0, 0, []⟩

theorem twoProcs_initial : Initial twoProcs := ⟨fun _ => Or.inr rfl, rfl⟩

def clobberRun : List (Event (Fin 2)) :=
  [.enter 3, .sti, .handlerReturn 5, .store, .tick 1, .enter 4, .handlerReturn 7, .store] ++
    wayOut ++ .tick 0 :: wayOut

def sameRun : List (Event (Fin 2)) :=
  [.enter 3, .sti, .handlerReturn 7, .store, .tick 1, .enter 4, .handlerReturn 7, .store] ++
    wayOut ++ .tick 0 :: wayOut

theorem found_own_of_storesSame_two :
    (run step twoProcs sameRun).exits = [⟨0, 7, 7⟩, ⟨1, 7, 7⟩] ∧
      ∀ r ∈ (run step twoProcs sameRun).exits, r.found = r.own :=
  ⟨by decide +kernel, (found_own_of_storesSame twoProcs_initial _).1
    ⟨trivial, trivial, trivial, fun _ => by decide +kernel, trivial, trivial, trivial,
      fun _ => by decide +kernel, trivial, trivial, trivial, trivial, trivial, trivial, trivial,
      trivial, trivial, trivial⟩⟩

theorem read_finds_value_of_write :
    Initial twoProcs ∧ (run step twoProcs clobberRun).exits = [⟨0, 5, 7⟩, ⟨1, 7, 7⟩] :=
  ⟨twoProcs_initial, by decide +kernel⟩

end RedstoneOS.SyscallExit
