import RedstoneOS.ExecuteEffects
import RedstoneOS.KernelRuns
import RedstoneOS.Library.ParentChain

namespace RedstoneOS.Sessions

open KernelState Execute Schedule ExecuteEffects KernelRuns Library.ParentChain

structure Job where
  proc : Proc
  ctx : Regs
  deriving DecidableEq

/-- What the scheduler is for: every terminal has a stack of jobs of which only the top one
can run, and one terminal has the processor. -/
structure Session where
  current : Int
  stack : Int → List Job

inductive SessionStep : Session → Session → Prop
  | stay (a : Session) : SessionStep a a
  | resume (a : Session) (t : Int) (h : a.stack t ≠ []) : SessionStep a { a with current := t }
  | start (a : Session) (t : Int) (j : Job) (h : a.stack t = []) :
      SessionStep a ⟨t, Function.update a.stack t [j]⟩
  | push (a : Session) (j : Job) :
      SessionStep a { a with stack := Function.update a.stack a.current (j :: a.stack a.current) }
  | pop (a : Session) (j c : Job) (rest : List Job) (h : a.stack a.current = j :: c :: rest) :
      SessionStep a { a with stack := Function.update a.stack a.current (c :: rest) }
  | restart (a : Session) (j j' : Job) (h : a.stack a.current = [j]) :
      SessionStep a { a with stack := Function.update a.stack a.current [j'] }

theorem SessionStep.keeps_jobs {a a' : Session} (h : SessionStep a a') {t : Int}
    (ht : a.stack t ≠ []) : a'.stack t ≠ [] := by
  have hupd : ∀ u j l, Function.update a.stack u (j :: l) t ≠ [] := by
    intro u j l
    by_cases hu : t = u
    · subst hu
      simp
    · rwa [Function.update_of_ne hu]
  cases h with
  | stay => exact ht
  | resume => exact ht
  | start => exact hupd _ _ _
  | push => exact hupd _ _ _
  | pop => exact hupd _ _ _
  | restart => exact hupd _ _ _

def topSlot : List Job → Int
  | [] => -1
  | j :: _ => j.proc.slot

def calledCall : Record → Option Nat
  | .called call .. => some call
  | _ => none

def returnedCall : Record → Option Nat
  | .returned call .. => call
  | _ => none

def calledCalls (log : List Record) : List Nat := log.filterMap calledCall

def returnedCalls (log : List Record) : List Nat := log.filterMap returnedCall

/-- The process and the registers at the latest tick that interrupted a terminal. -/
def lastPreempted (t : Int) : List Record → Option (Proc × Regs)
  | [] => none
  | .preempted u p r :: log => if u = t then some (p, r) else lastPreempted t log
  | _ :: log => lastPreempted t log

/-- The terminal that the latest `execute` or `halt` that changed a process worked on. -/
def lastTerminal : List Record → Option Int
  | [] => none
  | .called _ _ t _ _ :: _ => some t
  | .returned _ _ _ t _ _ _ _ :: _ => some t
  | .preempted _ _ _ :: log => lastTerminal log

/-- An entry fits the log that it was added to: a call has a new number, and a return
belongs to a call that has not returned, gives it the status of its own child, and
resumes its caller with the registers it stored. -/
def FitsLog (log : List Record) : Record → Prop
  | .called call _ _ _ _ => call ∉ calledCalls log
  | .returned call target value t r child status resumed =>
      call = some child.call ∧ target = .haltRet ∧ value = (status.toNat : Int) ∧
        child.call ∉ returnedCalls log ∧ .called child.call (some resumed) t child r ∈ log
  | .preempted .. => True

def Matched : List Record → Prop
  | [] => True
  | e :: log => FitsLog log e ∧ Matched log

structure LogMatches (log : List Record) (calls : Nat) : Prop where
  matched : Matched log
  calledLe : ∀ n ∈ calledCalls log, n ≤ calls
  returnedLe : ∀ n ∈ returnedCalls log, n ≤ calls

/-- The PCB of a job names the job below it and what `halt` will load. -/
structure PcbOf (k : Kernel) (j : Job) (parent : Int) : Prop where
  pid : (k.pcbs (pcbAddr j.proc.slot)).PID = j.proc.slot
  parent : (k.pcbs (pcbAddr j.proc.slot)).parent = parent
  esp : (k.pcbs (pcbAddr j.proc.slot)).esp = j.ctx.esp
  ebp : (k.pcbs (pcbAddr j.proc.slot)).ebp = j.ctx.ebp
  target : (k.pcbs (pcbAddr j.proc.slot)).returnAdd = .haltRet

structure WaitsFor (m : Machine) (t : Int) (c j : Job) : Prop where
  stack : stackSlot j.ctx.esp = c.proc.slot
  activation : m.kstack c.proc.slot = ⟨c.proc, some j.proc.call⟩
  esp0 : (m.kernel.pcbs (pcbAddr j.proc.slot)).esp0 = kernelStackTop c.proc.slot
  called : .called j.proc.call (some c.proc) t j.proc j.ctx ∈ m.log

def Linked (m : Machine) (t : Int) : List Job → Prop
  | [] => True
  | j :: rest =>
      PcbOf m.kernel j (topSlot rest) ∧ (∀ c ∈ rest.head?, WaitsFor m t c j) ∧ Linked m t rest

/-- The process table, the PCBs and the kernel stacks hold exactly the jobs of the stacks. -/
structure Holds (m : Machine) (stack : Int → List Job) : Prop where
  terminals : ∀ t, ∀ j ∈ stack t, IsTerminal t
  top : ∀ t, IsTerminal t → m.kernel.terminalProcessInfo t = topSlot (stack t)
  linked : ∀ t, Linked m t (stack t)
  slots : ∀ t, ∀ j ∈ stack t, IsSlot j.proc.slot
  apart : ∀ t, ∀ j ∈ stack t, ∀ t', ∀ j' ∈ stack t', j.proc.slot = j'.proc.slot → t = t'
  busy : ∀ t, ∀ j ∈ stack t, m.kernel.processState j.proc.slot = 1
  free : ∀ p, IsSlot p → (∀ t, ∀ j ∈ stack t, j.proc.slot ≠ p) → m.kernel.processState p = 0
  callsApart : ∀ t, ∀ j ∈ stack t, ∀ t', ∀ j' ∈ stack t',
    j.proc.call = j'.proc.call → j.proc.slot = j'.proc.slot
  unreturned : ∀ t, ∀ j ∈ stack t, j.proc.call ≤ m.calls ∧ j.proc.call ∉ returnedCalls m.log
  log : LogMatches m.log m.calls

/-- The top job of a terminal without the processor waits for the tick that resumes it. -/
structure Preempted (m : Machine) (t : Int) (j : Job) : Prop where
  last : lastPreempted t m.log = some (j.proc,
    ⟨(m.kernel.pcbs (pcbAddr j.proc.slot)).scheEsp, (m.kernel.pcbs (pcbAddr j.proc.slot)).scheEbp⟩)
  stack : stackSlot (m.kernel.pcbs (pcbAddr j.proc.slot)).scheEsp = j.proc.slot
  activation : (m.kstack j.proc.slot).proc = j.proc

structure Represents (m : Machine) (a : Session) : Prop where
  holds : Holds m a.stack
  terminal : IsTerminal a.current
  current : m.kernel.currentTerminalId = a.current
  next : m.kernel.nextScheTerminal = a.current
  ready : m.kernel.scheReady = 0
  pid : m.kernel.pid ≠ -1
  running : ∃ j ∈ (a.stack a.current).head?, m.running = j.proc
  page : m.kernel.pdArray userPage = userPageEntry m.running.slot
  esp0 : m.kernel.tss.esp0 = kernelStackTop m.running.slot
  waiting : ∀ t, t ≠ a.current → ∀ j ∈ (a.stack t).head?, Preempted m t j
  lastCall : ∃ t, lastTerminal m.log = some t ∧ ∃ j ∈ (a.stack t).head?, m.kernel.pid = j.proc.slot

structure SameLinks (p p' : Pcb) : Prop where
  PID : p'.PID = p.PID
  parent : p'.parent = p.parent
  esp0 : p'.esp0 = p.esp0
  esp : p'.esp = p.esp
  ebp : p'.ebp = p.ebp
  returnAdd : p'.returnAdd = p.returnAdd

theorem SameLinks.refl (p : Pcb) : SameLinks p p := ⟨rfl, rfl, rfl, rfl, rfl, rfl⟩

variable {m m' : Machine} {a : Session} {stack : Int → List Job} {t : Int} {l : List Job} {j c : Job}

theorem mem_of_head? (h : c ∈ l.head?) : c ∈ l := List.mem_of_mem_head? h

theorem exists_rest (h : j ∈ l.head?) : ∃ rest, l = j :: rest :=
  ⟨l.tail, (List.cons_head?_tail h).symm⟩

theorem PcbOf.frame {parent : Int} (h : PcbOf m.kernel j parent)
    (hpcb : SameLinks (m.kernel.pcbs (pcbAddr j.proc.slot))
      (m'.kernel.pcbs (pcbAddr j.proc.slot))) : PcbOf m'.kernel j parent where
  pid := hpcb.PID.trans h.pid
  parent := hpcb.parent.trans h.parent
  esp := hpcb.esp.trans h.esp
  ebp := hpcb.ebp.trans h.ebp
  target := hpcb.returnAdd.trans h.target

theorem Linked.frame (h : Linked m t l)
    (hpcb : ∀ j ∈ l, SameLinks (m.kernel.pcbs (pcbAddr j.proc.slot))
      (m'.kernel.pcbs (pcbAddr j.proc.slot)))
    (hkstack : ∀ j ∈ l.tail, m'.kstack j.proc.slot = m.kstack j.proc.slot)
    (hlog : ∀ e ∈ m.log, e ∈ m'.log) : Linked m' t l := by
  induction l with
  | nil => trivial
  | cons j rest ih =>
    obtain ⟨hj, hw, hrest⟩ := h
    refine ⟨hj.frame (hpcb j (by simp)), ?_, ih hrest (fun j' hj' => hpcb j' (by simp [hj']))
      (fun j' hj' => hkstack j' (List.mem_of_mem_tail hj'))⟩
    intro c hc
    have hw := hw c hc
    exact {
      stack := hw.stack
      activation := (hkstack c (mem_of_head? hc)).trans hw.activation
      esp0 := (hpcb j (by simp)).esp0.trans hw.esp0
      called := hlog _ hw.called }

theorem Linked.pid (h : Linked m t l) (hj : j ∈ l) :
    (m.kernel.pcbs (pcbAddr j.proc.slot)).PID = j.proc.slot := by
  induction l with
  | nil => simp at hj
  | cons c rest ih =>
    obtain rfl | hj := List.mem_cons.mp hj
    · exact h.1.pid
    · exact ih h.2.2 hj

/-- The parents recorded in the PCBs lead from the top job to the bottom job and stop. -/
theorem Linked.chain (h : Linked m t l) (hslots : ∀ j ∈ l, IsSlot j.proc.slot) :
    Chain (fun p => (m.kernel.pcbs (pcbAddr p)).parent) (-1) (topSlot l)
      (l.map fun j => j.proc.slot) := by
  induction l with
  | nil => exact .nil
  | cons j rest ih =>
    have hj := hslots j (by simp)
    have hne : j.proc.slot ≠ -1 := by
      simp only [IsSlot] at hj
      omega
    have hrest := ih h.2.2 fun j' hj' => hslots j' (by simp [hj'])
    rw [← h.1.parent] at hrest
    exact .cons hne hrest

theorem Holds.nodup (h : Holds m stack) (t : Int) :
    ((stack t).map fun j => j.proc.slot).Nodup :=
  chain_nodup ((h.linked t).chain (h.slots t))

theorem Holds.not_mem_tail (h : Holds m stack) {rest : List Job} (hs : stack t = j :: rest) :
    ∀ c ∈ rest, c.proc.slot ≠ j.proc.slot := by
  have hn := h.nodup t
  rw [hs, List.map_cons, List.nodup_cons] at hn
  intro c hc he
  exact hn.1 (he ▸ List.mem_map_of_mem hc)

theorem Holds.chain (h : Holds m stack) (ht : IsTerminal t) :
    Chain (fun p => (m.kernel.pcbs (pcbAddr p)).parent) (-1) (m.kernel.terminalProcessInfo t)
      ((stack t).map fun j => j.proc.slot) := by
  rw [h.top t ht]
  exact (h.linked t).chain (h.slots t)

theorem Holds.frame (h : Holds m stack)
    (htpi : m'.kernel.terminalProcessInfo = m.kernel.terminalProcessInfo)
    (hps : m'.kernel.processState = m.kernel.processState)
    (hpcb : ∀ t, ∀ j ∈ stack t, SameLinks (m.kernel.pcbs (pcbAddr j.proc.slot))
      (m'.kernel.pcbs (pcbAddr j.proc.slot)))
    (hkstack : ∀ t, ∀ j ∈ (stack t).tail, m'.kstack j.proc.slot = m.kstack j.proc.slot)
    (hcalls : m'.calls = m.calls) (hlog : ∀ e ∈ m.log, e ∈ m'.log)
    (hunr : ∀ t, ∀ j ∈ stack t, j.proc.call ∉ returnedCalls m'.log)
    (hmatch : LogMatches m'.log m'.calls) : Holds m' stack where
  terminals := h.terminals
  top t ht := by rw [htpi, h.top t ht]
  linked t := (h.linked t).frame (hpcb t) (hkstack t) hlog
  slots := h.slots
  apart := h.apart
  busy t j hj := by rw [hps, h.busy t j hj]
  free p hp hf := by rw [hps, h.free p hp hf]
  callsApart := h.callsApart
  unreturned t j hj := ⟨hcalls ▸ (h.unreturned t j hj).1, hunr t j hj⟩
  log := hmatch

theorem Holds.congr (h : Holds m stack)
    (htpi : m'.kernel.terminalProcessInfo = m.kernel.terminalProcessInfo)
    (hps : m'.kernel.processState = m.kernel.processState)
    (hpcbs : m'.kernel.pcbs = m.kernel.pcbs) (hkstack : m'.kstack = m.kstack)
    (hcalls : m'.calls = m.calls) (hlog : m'.log = m.log) : Holds m' stack := by
  refine h.frame htpi hps (fun t j _ => ?_) (fun t j _ => by rw [hkstack]) hcalls
    (fun e he => by rwa [hlog]) (fun t j hj => ?_) ?_
  · rw [hpcbs]
    exact .refl _
  · rw [hlog]
    exact (h.unreturned t j hj).2
  · rw [hlog, hcalls]
    exact h.log

theorem LogMatches.called {log : List Record} {calls : Nat} (h : LogMatches log calls)
    (caller : Option Proc) (t : Int) (child : Proc) (r : Regs) :
    LogMatches (.called (calls + 1) caller t child r :: log) (calls + 1) where
  matched := by
    refine ⟨fun hc => ?_, h.matched⟩
    have hle := h.calledLe _ hc
    omega
  calledLe n hn := by
    obtain rfl | hn := List.mem_cons.mp hn
    · exact le_rfl
    · exact (h.calledLe n hn).trans (Nat.le_succ calls)
  returnedLe n hn := (h.returnedLe n hn).trans (Nat.le_succ calls)

theorem LogMatches.preempted {log : List Record} {calls : Nat} (h : LogMatches log calls)
    (t : Int) (p : Proc) (r : Regs) : LogMatches (.preempted t p r :: log) calls :=
  ⟨⟨trivial, h.matched⟩, h.calledLe, h.returnedLe⟩

theorem mem_update {u : Int} : j ∈ Function.update stack t l u ↔
    u = t ∧ j ∈ l ∨ u ≠ t ∧ j ∈ stack u := by
  by_cases hu : u = t
  · subst hu
    simp
  · simp [hu]

theorem mem_push {u : Int} (h : c ∈ Function.update stack t (j :: stack t) u) :
    u = t ∧ c = j ∨ c ∈ stack u := by
  obtain ⟨rfl, hc⟩ | ⟨_, hc⟩ := mem_update.mp h
  · exact (List.mem_cons.mp hc).imp_left fun he => ⟨rfl, he⟩
  · exact Or.inr hc

theorem mem_push_old {u : Int} (h : c ∈ stack u) :
    c ∈ Function.update stack t (j :: stack t) u := by
  by_cases hu : u = t
  · subst hu
    simp [h]
  · rwa [Function.update_of_ne hu]

theorem LogMatches.returned {log : List Record} {calls : Nat} (h : LogMatches log calls)
    {t : Int} {child resumed : Proc} {r : Regs} (status : UInt8) (hle : child.call ≤ calls)
    (hnew : child.call ∉ returnedCalls log)
    (hcalled : .called child.call (some resumed) t child r ∈ log) :
    LogMatches (.returned (some child.call) .haltRet (status.toNat : Int) t r child status
      resumed :: log) calls where
  matched := ⟨⟨rfl, rfl, rfl, hnew, hcalled⟩, h.matched⟩
  calledLe := h.calledLe
  returnedLe n hn := by
    obtain rfl | hn := List.mem_cons.mp hn
    · exact hle
    · exact h.returnedLe n hn

/-- What holds of any two old jobs holds of any two jobs after a push, if it holds of the new
one and itself and of the new one and any other. -/
theorem push_pairs {P : Int → Job → Int → Job → Prop}
    (hold : ∀ u, ∀ c ∈ stack u, ∀ u', ∀ c' ∈ stack u', P u c u' c') (hnew : P t j t j)
    (hleft : ∀ u, ∀ c ∈ stack u, P t j u c) (hright : ∀ u, ∀ c ∈ stack u, P u c t j) :
    ∀ u, ∀ c ∈ Function.update stack t (j :: stack t) u, ∀ u',
      ∀ c' ∈ Function.update stack t (j :: stack t) u', P u c u' c' := by
  intro u c hc u' c' hc'
  rcases mem_push hc with ⟨hu, hcj⟩ | hold_c <;> rcases mem_push hc' with ⟨hu', hcj'⟩ | hold_c'
  · rw [hu, hcj, hu', hcj']
    exact hnew
  · rw [hu, hcj]
    exact hleft u' c' hold_c'
  · rw [hu', hcj']
    exact hright u c hold_c
  · exact hold u c hold_c u' c' hold_c'

variable {i : Int} {caller : Option Proc} {waiting : Suspended}

/-- The jobs that are there do not notice a new process in a free slot, unless its `execute`
call waits on the kernel stack of one that waits already. -/
theorem Linked.enter (h : Linked m t l) (hi : freeSlot m.kernel.processState = some i)
    (prog : Program) (r : Regs) (u : Int) (hnew : ∀ j ∈ l, j.proc.slot ≠ i)
    (htail : ∀ j ∈ l.tail, j.proc.slot ≠ stackSlot r.esp) :
    Linked (enterProcess caller u waiting r (spawn prog r m.kernel) m) t l := by
  refine h.frame (fun j hj => ?_) (fun j hj => ?_) (fun e he => ?_)
  · simp only [enterProcess, spawn_pcb_other prog r hi (hnew j hj)]
    exact .refl _
  · exact Function.update_of_ne (htail j hj) _ _
  · exact List.mem_cons_of_mem _ he

theorem pcbOf_enter (hi : freeSlot m.kernel.processState = some i)
    (htop : m.kernel.terminalProcessInfo (attachTerminal m.kernel) = topSlot l)
    (prog : Program) (r : Regs) (u : Int) :
    PcbOf (enterProcess caller u waiting r (spawn prog r m.kernel) m).kernel
      ⟨⟨i, m.calls + 1⟩, r⟩ (topSlot l) := by
  obtain ⟨hslot, -⟩ := freeSlot_some hi
  constructor <;> simp only [enterProcess, spawn_pcb_new prog r hi, newPcb]
  · simp only [IsSlot] at hslot
    omega
  · exact htop

theorem waitsFor_enter (hi : freeSlot m.kernel.processState = some i) (prog : Program) (r : Regs)
    (hesp : stackSlot r.esp = c.proc.slot) (htss : m.kernel.tss.esp0 = kernelStackTop c.proc.slot) :
    WaitsFor (enterProcess (some c.proc) t ⟨c.proc, some (m.calls + 1)⟩ r (spawn prog r m.kernel) m)
      t c ⟨⟨i, m.calls + 1⟩, r⟩ where
  stack := hesp
  activation := by
    rw [← hesp]
    exact Function.update_self _ _ _
  esp0 := by simp only [enterProcess, spawn_pcb_new prog r hi, newPcb, htss]
  called := by
    rw [spawn_eq prog r hi]
    exact List.mem_cons_self

/-- A new process in a free slot on top of a terminal's jobs. The registers of the `execute`
call must not point into the kernel stack of a job that waits for another call. -/
theorem Holds.push (h : Holds m stack) (hi : freeSlot m.kernel.processState = some i)
    (ht : IsTerminal t) (hat : attachTerminal m.kernel = t) (prog : Program) (r : Regs)
    (hcaller : ∀ c ∈ (stack t).head?, caller = some c.proc ∧
      waiting = ⟨c.proc, some (m.calls + 1)⟩ ∧ stackSlot r.esp = c.proc.slot ∧
      m.kernel.tss.esp0 = kernelStackTop c.proc.slot)
    (htail : ∀ u, ∀ j ∈ (stack u).tail, j.proc.slot ≠ stackSlot r.esp) :
    Holds (enterProcess caller t waiting r (spawn prog r m.kernel) m)
      (Function.update stack t (⟨⟨i, m.calls + 1⟩, r⟩ :: stack t)) := by
  obtain ⟨hslot, hfree⟩ := freeSlot_some hi
  have hnew : ∀ u, ∀ j ∈ stack u, j.proc.slot ≠ i := by
    intro u j hj he
    have hb := h.busy u j hj
    rw [he, hfree] at hb
    omega
  have hcall : ∀ u, ∀ j ∈ stack u, j.proc.call ≠ m.calls + 1 := by
    intro u j hj he
    have hle := (h.unreturned u j hj).1
    omega
  have htpi : (spawn prog r m.kernel).terminalProcessInfo =
      Function.update m.kernel.terminalProcessInfo t i := by
    rw [spawn_eq prog r hi, hat]
  have hps : (spawn prog r m.kernel).processState =
      Function.update m.kernel.processState i 1 := by
    rw [spawn_eq prog r hi]
  have hpid : (spawn prog r m.kernel).pid = i := by rw [spawn_eq prog r hi]
  have hkept : ∀ u,
      Linked (enterProcess caller t waiting r (spawn prog r m.kernel) m) u (stack u) :=
    fun u => (h.linked u).enter hi prog r t (hnew u) (htail u)
  constructor
  · intro u j hj
    obtain ⟨rfl, rfl⟩ | hj := mem_push hj
    · exact ht
    · exact h.terminals u j hj
  · intro u hu
    simp only [enterProcess, htpi]
    by_cases hut : u = t
    · subst hut
      simp [topSlot]
    · rw [Function.update_of_ne hut, Function.update_of_ne hut, h.top u hu]
  · intro u
    by_cases hut : u = t
    · subst hut
      rw [Function.update_self]
      refine ⟨pcbOf_enter hi (by rw [hat, h.top u ht]) prog r u, fun c hc => ?_, hkept u⟩
      obtain ⟨rfl, rfl, hesp, htss⟩ := hcaller c hc
      exact waitsFor_enter hi prog r hesp htss
    · rw [Function.update_of_ne hut]
      exact hkept u
  · intro u j hj
    obtain ⟨rfl, rfl⟩ | hj := mem_push hj
    · exact hslot
    · exact h.slots u j hj
  · exact push_pairs h.apart (fun _ => rfl) (fun u j hj he => absurd he.symm (hnew u j hj))
      fun u j hj he => absurd he (hnew u j hj)
  · intro u j hj
    simp only [enterProcess, hps]
    obtain ⟨rfl, rfl⟩ | hj := mem_push hj
    · exact Function.update_self _ _ _
    · rw [Function.update_of_ne (hnew u j hj), h.busy u j hj]
  · intro p hp hf
    have hpi : p ≠ i := fun he => hf t _ (by rw [Function.update_self]; exact List.mem_cons_self) he.symm
    simp only [enterProcess, hps, Function.update_of_ne hpi]
    exact h.free p hp fun u j hj => hf u j (mem_push_old hj)
  · exact push_pairs h.callsApart (fun _ => rfl) (fun u j hj he => absurd he.symm (hcall u j hj))
      fun u j hj he => absurd he (hcall u j hj)
  · intro u j hj
    obtain ⟨rfl, rfl⟩ | hj := mem_push hj
    · exact ⟨le_rfl, fun hr => Nat.not_succ_le_self _ (h.log.returnedLe _ hr)⟩
    · exact ⟨(h.unreturned u j hj).1.trans (Nat.le_succ _), (h.unreturned u j hj).2⟩
  · simp only [enterProcess, hpid]
    exact h.log.called caller t ⟨i, m.calls + 1⟩ r

theorem mem_pop {rest : List Job} {u : Int} (hs : stack t = j :: rest)
    (h : c ∈ Function.update stack t rest u) : c ∈ stack u := by
  obtain ⟨rfl, hc⟩ | ⟨_, hc⟩ := mem_update.mp h
  · rw [hs]
    exact List.mem_cons_of_mem _ hc
  · exact hc

theorem mem_pop_old {rest : List Job} {u : Int} (hs : stack t = j :: rest) (h : c ∈ stack u) :
    c = j ∨ c ∈ Function.update stack t rest u := by
  by_cases hut : u = t
  · subst hut
    rw [hs] at h
    exact (List.mem_cons.mp h).imp_right fun hc => mem_update.mpr (Or.inl ⟨rfl, hc⟩)
  · exact Or.inr (mem_update.mpr (Or.inr ⟨hut, h⟩))

theorem sameLinks_haltRelease (k : Kernel) (addr : Int) :
    SameLinks (k.pcbs addr) ((haltRelease k).pcbs addr) := by
  rw [haltRelease_eq rfl]
  by_cases ha : addr = getPcbAddr k
  · subst ha
    simp only [Function.update_self]
    exact ⟨rfl, rfl, rfl, rfl, rfl, rfl⟩
  · simp only [Function.update_of_ne ha]
    exact .refl _

theorem Linked.release (h : Linked m t l) :
    Linked { m with kernel := haltRelease m.kernel } t l :=
  h.frame (fun _ _ => sameLinks_haltRelease m.kernel _) (fun _ _ => rfl) fun _ he => he

theorem Holds.getPcbAddr_eq (h : Holds m stack) {rest : List Job} (hs : stack t = j :: rest)
    (ht : m.kernel.currentTerminalId = t) : getPcbAddr m.kernel = pcbAddr j.proc.slot := by
  have hterm := h.terminals t j (by rw [hs]; exact List.mem_cons_self)
  rw [getPcbAddr, ht, h.top t hterm, hs]
  rfl

/-- Once `halt` has released its slot, the top job of the current terminal is gone. -/
theorem Holds.pop (h : Holds m stack) {rest : List Job} (hs : stack t = j :: rest)
    (ht : m.kernel.currentTerminalId = t) :
    Holds { m with kernel := haltRelease m.kernel } (Function.update stack t rest) := by
  have hj : j ∈ stack t := by
    rw [hs]
    exact List.mem_cons_self
  have hlinked := h.linked t
  rw [hs] at hlinked
  have hpid := hlinked.1.pid
  have hparent := hlinked.1.parent
  rw [← h.getPcbAddr_eq hs ht] at hpid hparent
  have hother : ∀ u, ∀ c ∈ Function.update stack t rest u, c.proc.slot ≠ j.proc.slot := by
    intro u c hc he
    have hu := h.apart u c (mem_pop hs hc) t j hj he
    subst hu
    rw [Function.update_self] at hc
    exact h.not_mem_tail hs c hc he
  have hps : (haltRelease m.kernel).processState =
      Function.update m.kernel.processState j.proc.slot 0 := by
    rw [haltRelease_eq rfl, ← hpid]
  have htpi : (haltRelease m.kernel).terminalProcessInfo =
      Function.update m.kernel.terminalProcessInfo t (topSlot rest) := by
    rw [haltRelease_eq rfl, ← hparent, ← ht]
  constructor
  · exact fun u c hc => h.terminals u c (mem_pop hs hc)
  · intro u hu
    simp only [htpi]
    by_cases hut : u = t
    · rw [hut, Function.update_self, Function.update_self]
    · rw [Function.update_of_ne hut, Function.update_of_ne hut, h.top u hu]
  · intro u
    by_cases hut : u = t
    · subst hut
      rw [Function.update_self]
      exact hlinked.2.2.release
    · rw [Function.update_of_ne hut]
      exact (h.linked u).release
  · exact fun u c hc => h.slots u c (mem_pop hs hc)
  · exact fun u c hc u' c' hc' => h.apart u c (mem_pop hs hc) u' c' (mem_pop hs hc')
  · intro u c hc
    simp only [hps, Function.update_of_ne (hother u c hc), h.busy u c (mem_pop hs hc)]
  · intro p hp hf
    simp only [hps]
    by_cases hpj : p = j.proc.slot
    · rw [hpj, Function.update_self]
    · rw [Function.update_of_ne hpj]
      refine h.free p hp fun u c hc => ?_
      obtain rfl | hc := mem_pop_old hs hc
      · exact Ne.symm hpj
      · exact hf u c hc
  · exact fun u c hc u' c' hc' => h.callsApart u c (mem_pop hs hc) u' c' (mem_pop hs hc')
  · exact fun u c hc => h.unreturned u c (mem_pop hs hc)
  · exact h.log

theorem topSlot_eq_unused {l : List Job} (hl : ∀ j ∈ l, IsSlot j.proc.slot)
    (h : topSlot l = unused) : l = [] := by
  cases l with
  | nil => rfl
  | cons j l =>
    have hj := hl j (by simp)
    simp only [topSlot, unused, IsSlot] at h hj
    omega

theorem topSlot_eq {l : List Job} (h : j ∈ l.head?) : topSlot l = j.proc.slot := by
  obtain ⟨rest, rfl⟩ := exists_rest h
  rfl

theorem Represents.running_top (h : Represents m a) :
    m.kernel.terminalProcessInfo m.kernel.currentTerminalId = m.running.slot := by
  obtain ⟨j, hj, hr⟩ := h.running
  rw [h.current, h.holds.top _ h.terminal, topSlot_eq hj, hr]

theorem Represents.getPcbAddr_eq (h : Represents m a) :
    getPcbAddr m.kernel = pcbAddr m.running.slot := by
  rw [getPcbAddr, h.running_top]

theorem Represents.entry_slot (h : Represents m a) (x : Trap) :
    stackSlot (entryRegs m x).esp = m.running.slot := by
  simp only [entryRegs, h.esp0]
  exact stackSlot_kernelStackTop _ x

theorem Represents.tail_slot (h : Represents m a) {u : Int} (hj : j ∈ (a.stack u).tail) :
    j.proc.slot ≠ m.running.slot := by
  obtain ⟨c, hc, hr⟩ := h.running
  intro he
  rw [hr] at he
  have hu := h.holds.apart u j (List.mem_of_mem_tail hj) _ c (mem_of_head? hc) he
  subst hu
  obtain ⟨rest, hs⟩ := exists_rest hc
  exact h.holds.not_mem_tail hs j (by simpa [hs] using hj) he

theorem Represents.other_slot (h : Represents m a) {u : Int} (hu : u ≠ a.current)
    (hj : j ∈ a.stack u) : j.proc.slot ≠ m.running.slot := by
  obtain ⟨c, hc, hr⟩ := h.running
  intro he
  rw [hr] at he
  exact hu (h.holds.apart u j hj _ c (mem_of_head? hc) he)

theorem Preempted.frame (h : Preempted m t j)
    (hlast : lastPreempted t m'.log = lastPreempted t m.log)
    (hesp : (m'.kernel.pcbs (pcbAddr j.proc.slot)).scheEsp =
      (m.kernel.pcbs (pcbAddr j.proc.slot)).scheEsp)
    (hebp : (m'.kernel.pcbs (pcbAddr j.proc.slot)).scheEbp =
      (m.kernel.pcbs (pcbAddr j.proc.slot)).scheEbp)
    (hkstack : (m'.kstack j.proc.slot).proc = (m.kstack j.proc.slot).proc) :
    Preempted m' t j where
  last := by rw [hlast, hesp, hebp, h.last]
  stack := by rw [hesp, h.stack]
  activation := by rw [hkstack, h.activation]

/-- The state in which a new process runs on terminal `t`, given the state just before the
search for its slot. -/
theorem represents_enter (h : Holds m stack)
    (hi : freeSlot m.kernel.processState = some i) (ht : IsTerminal t)
    (hcur : m.kernel.currentTerminalId = t) (hnext : m.kernel.nextScheTerminal = t)
    (hat : attachTerminal m.kernel = t) (prog : Program) (r : Regs)
    (caller : Option Proc) (waiting : Suspended)
    (hcaller : ∀ c ∈ (stack t).head?, caller = some c.proc ∧
      waiting = ⟨c.proc, some (m.calls + 1)⟩ ∧ stackSlot r.esp = c.proc.slot ∧
      m.kernel.tss.esp0 = kernelStackTop c.proc.slot)
    (htail : ∀ u, ∀ j ∈ (stack u).tail, j.proc.slot ≠ stackSlot r.esp)
    (hwait : ∀ u, u ≠ t → ∀ j ∈ (stack u).head?, Preempted m u j ∧
      (j.proc.slot = stackSlot r.esp → waiting.proc = j.proc)) :
    Represents (enterProcess caller t waiting r (spawn prog r m.kernel) m)
      ⟨t, Function.update stack t (⟨⟨i, m.calls + 1⟩, r⟩ :: stack t)⟩ := by
  have hp := h.push hi ht hat prog r hcaller htail
  obtain ⟨hslot, hfree⟩ := freeSlot_some hi
  rw [spawn_eq prog r hi] at hp ⊢
  refine ⟨hp, ht, hcur, hnext, rfl, ?_, ⟨⟨⟨i, m.calls + 1⟩, r⟩, by simp, rfl⟩, ?_, rfl, ?_,
    ⟨t, rfl, ⟨⟨i, m.calls + 1⟩, r⟩, by simp, rfl⟩⟩
  · simp only [enterProcess, IsSlot] at hslot ⊢
    omega
  · simp only [enterProcess, Function.update_self]
  · intro u hu j hj
    simp only [Function.update_of_ne hu] at hj
    obtain ⟨hw, hact⟩ := hwait u hu j hj
    have hb := h.busy u j (mem_of_head? hj)
    have hne : pcbAddr j.proc.slot ≠ pcbAddr i := by
      intro he
      rw [pcbAddr_inj.mp he, hfree] at hb
      omega
    refine hw.frame rfl ?_ ?_ ?_
    · simp only [enterProcess, Function.update_of_ne hne]
    · simp only [enterProcess, Function.update_of_ne hne]
    · simp only [enterProcess]
      by_cases hs : j.proc.slot = stackSlot r.esp
      · rw [hs, Function.update_self, hact hs, ← hs, hw.activation]
      · rw [Function.update_of_ne hs]

end RedstoneOS.Sessions
