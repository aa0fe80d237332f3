import RedstoneOS.Library.Processor
import Mathlib.Tactic.IntervalCases

namespace RedstoneOS.Linkage

open Library.ByteMemory Library.Processor

inductive SystemCall
  | halt
  | execute
  | read
  | write
  | open
  | close
  | getargs
  | vidmap
  | setHandler
  | sigreturn
  | malloc
  | free
  deriving DecidableEq

namespace SystemCall

def number : SystemCall → UInt32
  | .halt => 1
  | .execute => 2
  | .read => 3
  | .write => 4
  | .open => 5
  | .close => 6
  | .getargs => 7
  | .vidmap => 8
  | .setHandler => 9
  | .sigreturn => 10
  | .malloc => 11
  | .free => 12

end SystemCall

def jump : List SystemCall :=
  [.halt, .execute, .read, .write, .open, .close, .getargs, .vidmap, .setHandler, .sigreturn,
    .malloc, .free]

def kernelCs : UInt32 := 0x10
def kernelDs : UInt32 := 0x18

/-- Where the linker has put the code and the word `save_eax`. The C functions are given by what
they do between their `call` and the instruction after it, `none` where they do not return. -/
structure Image where
  saveEax : Nat
  wrapper : UInt32
  afterCall : UInt32
  afterInt : SystemCall → UInt32
  entry : SystemCall → UInt32
  body : SystemCall → Core → Option Core

variable (alu : Alu) (img : Image)

def systemcallGate : Gate := ⟨img.wrapper, kernelCs, kernelDs⟩

def call (after entry : UInt32) (c : Core) : Core :=
  { c.push after with cpu := { (c.push after).cpu with eip := entry } }

def restore : List Op := [.popfl, .popal]

def refuse : List Op := [.sti, .constant (-1) .eax, .iret]

def invalid : List Op := restore ++ refuse

def passArguments : List Op := [.push .edx, .push .ecx, .push .ebx]

def dropArguments : List Op := [.store .eax img.saveEax, .pop .ebx, .pop .ecx, .pop .edx]

def answer : List Op := [.load img.saveEax .eax, .sti, .iret]

def leaveWrapper : List Op := dropArguments img ++ (restore ++ answer img)

/-- `systemcall_wrapper` behind its `call`, where a C function has to return to. -/
def leaveCall (c : Core) : Option Core :=
  if c.cpu.eip = img.afterCall then some (runOps alu (leaveWrapper img) c) else none

def dispatch (c : Core) : Option Core :=
  let c := runOps alu (passArguments ++ [.dec .eax]) c
  match jump[(c.cpu.reg .eax).toNat]? with
  | none => none
  | some s =>
    match img.body s (call img.afterCall (img.entry s) c) with
    | none => none
    | some c => leaveCall alu img c

/-- `systemcall_wrapper`. Both its comparisons are signed. -/
def systemcallWrapper (c : Core) : Option Core :=
  let c := Op.apply alu (.cmp 1 .eax) (runOps alu [.pushal, .pushfl] c)
  if (c.cpu.reg .eax).toInt32 < 1 then some (runOps alu invalid c)
  else
    let c := Op.apply alu (.cmp 12 .eax) c
    if 12 < (c.cpu.reg .eax).toInt32 then some (runOps alu invalid c) else dispatch alu img c

def int80 (esp0 : UInt32) (c : Core) : Option Core :=
  systemcallWrapper alu img (interrupt (systemcallGate img) esp0 c)

def loadArguments (s : SystemCall) : List Op :=
  [.push .ebx, .constant s.number .eax, .fromStack 8 .ebx, .fromStack 12 .ecx, .fromStack 16 .edx]

def atInt (s : SystemCall) (c : Core) : Core :=
  let c := runOps alu (loadArguments s) c
  { c with cpu := { c.cpu with eip := img.afterInt s } }

/-- `DO_CALL`, entered by a `call` from C code. -/
def doCall (esp0 : UInt32) (s : SystemCall) (c : Core) : Option Core :=
  match int80 alu img esp0 (atInt alu img s c) with
  | none => none
  | some c => if c.cpu.eip = img.afterInt s then some (runOps alu [.pop .ebx, .ret] c) else none

def leaveInterrupt (locks : Bool) (after : UInt32) (c : Core) : Option Core :=
  if c.cpu.eip = after then
    let c := runOps alu restore c
    some (Op.iret.apply alu (if locks then Op.sti.apply alu c else c))
  else none

/-- The wrappers of the interrupts. That of the clock has no `cli` and no `sti`. -/
def interruptWrapper (locks : Bool) (after entry : UInt32) (handler : Core → Option Core) (c : Core) :
    Option Core :=
  let c := if locks then Op.cli.apply alu c else c
  match handler (call after entry (runOps alu [.pushal, .pushfl] c)) with
  | none => none
  | some c => leaveInterrupt alu locks after c

def rtcWrapper := interruptWrapper alu false
def keyboardWrapper := interruptWrapper alu true
def scheduleWrapper := interruptWrapper alu true
def mouseWrapper := interruptWrapper alu true

/-- What a C function keeps that has been called with `n` words on the stack: it returns behind
its `call`, and above the words the stack is as it was, up to `top`. -/
structure Returns (n top : Nat) (e c : Core) : Prop where
  eip : c.cpu.eip = e.peek 0
  esp : c.esp = e.esp + 4
  ss : c.cpu.ss = e.cpu.ss
  above : AgreeOn (e.esp.toNat + 4 + 4 * n) top e.mem c.mem

structure Called (esp0 : UInt32) (s : SystemCall) (cpu : Cpu) (m : Memory UInt8) (e : Core) :
    Prop where
  eip : e.cpu.eip = img.entry s
  words : ∃ flags esp, Stacked e.mem e.esp.toNat (img.afterCall :: cpu.reg .ebx :: cpu.reg .ecx ::
    cpu.reg .edx :: savedContext flags esp cpu)
  esp : e.esp.toNat + 72 = esp0.toNat
  changed : ChangedIn e.esp.toNat 72 m e.mem

variable {esp0 : UInt32} {s : SystemCall} {c e c' : Core} {cpu : Cpu}
  {m : Memory UInt8}

theorem pushed_call (after entry : UInt32) (hroom : 4 ≤ c.esp.toNat) :
    (call after entry c).esp.toNat + 4 = c.esp.toNat ∧
      Stacked (call after entry c).mem (call after entry c).esp.toNat [after] ∧
      ChangedIn (call after entry c).esp.toNat 4 c.mem (call after entry c).mem := by
  have hp := pushed_push (c := c) after hroom
  exact ⟨hp.esp, hp.stacked, hp.changed⟩

theorem call_ss (after entry : UInt32) (c : Core) : (call after entry c).cpu.ss = c.cpu.ss := by
  change (c.push after).cpu.ss = _
  rw [push_cpu, set_ss]

def atEntry (esp0 : UInt32) (s : SystemCall) (c : Core) : Core :=
  call img.afterCall (img.entry s) (runOps alu (passArguments ++ [.dec .eax])
    (Op.apply alu (.cmp 12 .eax) (Op.apply alu (.cmp 1 .eax)
      (runOps alu [.pushal, .pushfl] (interrupt (systemcallGate img) esp0 c)))))

theorem compared (c : Core) :
    (Op.apply alu (.cmp 12 .eax) (Op.apply alu (.cmp 1 .eax) c)).mem = c.mem ∧
      (Op.apply alu (.cmp 12 .eax) (Op.apply alu (.cmp 1 .eax) c)).cpu.reg = c.cpu.reg := ⟨rfl, rfl⟩

theorem passArguments_eq (c : Core) : runOps alu passArguments c =
    c.pushes [c.cpu.reg .ebx, c.cpu.reg .ecx, c.cpu.reg .edx] := by
  simp only [passArguments, runOps, List.foldl_cons, List.foldl_nil, Op.apply, Core.pushes,
    push_reg (show Reg.ecx ≠ .esp by decide), push_reg (show Reg.ebx ≠ .esp by decide)]

theorem frame_user (huser : cpu.IsUser) : (interruptFrame cpu).length = 5 := by
  rw [interruptFrame, if_pos huser]
  rfl

theorem saved_int80 (huser : c.cpu.IsUser) (hroom : 56 ≤ esp0.toNat) :
    Saved esp0 c.cpu c.mem
        (runOps alu [.pushal, .pushfl] (interrupt (systemcallGate img) esp0 c)) ∧
      (runOps alu [.pushal, .pushfl] (interrupt (systemcallGate img) esp0 c)).cpu.ss = kernelDs := by
  have hbase : interruptBase esp0 c.cpu = esp0 := if_pos huser
  have he := entered_interrupt (c := c) (systemcallGate img) esp0 (by
    rw [frame_user huser, hbase]
    omega)
  have hsaved := saved_entered alu he (by
    rw [savedContext_length, frame_user huser, hbase]
    omega)
  rwa [hbase, if_pos huser] at hsaved

theorem called_atEntry (huser : c.cpu.IsUser) (hroom : 72 ≤ esp0.toNat) :
    Called img esp0 s c.cpu c.mem (atEntry alu img esp0 s c) := by
  have hlen : (savedContext 0 0 c.cpu).length = 14 := by
    rw [savedContext_length, frame_user huser]
  obtain ⟨hsaved, -⟩ := saved_int80 alu img huser (by omega : 56 ≤ esp0.toNat)
  generalize hg : runOps alu [.pushal, .pushfl] (interrupt (systemcallGate img) esp0 c) = g at hsaved
  have hesp := hsaved.esp
  rw [hlen] at hesp
  obtain ⟨hmem', hreg'⟩ := compared alu g
  generalize hg' : Op.apply alu (.cmp 12 .eax) (Op.apply alu (.cmp 1 .eax) g) = g' at hmem' hreg'
  have hesp' : g'.esp = g.esp := congrFun hreg' .esp
  have hregs' : ∀ r, r ≠ .esp → g'.cpu.reg r = c.cpu.reg r := fun r hr =>
    (congrFun hreg' r).trans (hsaved.regs r hr)
  have hargs : Pushed [c.cpu.reg .ebx, c.cpu.reg .ecx, c.cpu.reg .edx] g'
      (g'.pushes [c.cpu.reg .ebx, c.cpu.reg .ecx, c.cpu.reg .edx]) :=
    pushed_pushes _ (by simp only [List.length_cons, List.length_nil, hesp']; omega)
  have hargsesp := hargs.esp
  simp only [List.length_cons, List.length_nil, hesp'] at hargsesp
  have hpush := passArguments_eq alu g'
  rw [hregs' .ebx (by decide), hregs' .ecx (by decide), hregs' .edx (by decide)] at hpush
  generalize g'.pushes [c.cpu.reg .ebx, c.cpu.reg .ecx, c.cpu.reg .edx] = p at hargs hargsesp hpush
  have hdec : ((Op.dec .eax).apply alu p).esp = p.esp := by
    change (p.cpu.set .eax (p.cpu.reg .eax - 1)).reg .esp = _
    exact set_reg_ne (by decide) _ _
  obtain ⟨hcall, htop, hch⟩ := pushed_call (c := (Op.dec .eax).apply alu p) img.afterCall
    (img.entry s) (by rw [hdec]; omega)
  have hentry : atEntry alu img esp0 s c =
      call img.afterCall (img.entry s) ((Op.dec .eax).apply alu p) := by
    rw [atEntry, hg, hg', runOps_append, hpush, runOps_one]
  rw [hentry]
  obtain ⟨flags, x, hctx⟩ := hsaved.stacked
  rw [hdec] at hcall
  have hwords : Stacked p.mem p.esp.toNat ([c.cpu.reg .ebx, c.cpu.reg .ecx, c.cpu.reg .edx] ++
      savedContext flags x c.cpu) := by
    refine stacked_append.mpr ⟨hargs.stacked, ?_⟩
    simp only [List.length_cons, List.length_nil]
    rw [hargsesp]
    exact hctx.congr fun y hlo hhi => hmem' ▸ (hargs.changed y (by
      simp only [List.length_cons, List.length_nil]
      omega)).symm
  refine ⟨rfl, ⟨flags, x, htop.1, ?_⟩, by omega, ?_⟩
  · rw [hcall]
    exact hwords.congr fun y hlo hhi => (hch y (by omega)).symm
  · have hp : ChangedIn p.esp.toNat (4 * 3) g.mem p.mem := hmem' ▸ hargs.changed
    have hs := hsaved.changed
    rw [hlen] at hs
    exact ((hs.widen (by omega) (by omega)).trans (hp.widen (by omega) (by omega))).trans
      (hch.widen (by omega) (by omega))

theorem eax_passArguments (c : Core) :
    (runOps alu (passArguments ++ [.dec .eax]) c).cpu.reg .eax = c.cpu.reg .eax - 1 := by
  have hpush : (runOps alu passArguments c).cpu.reg .eax = c.cpu.reg .eax := by
    rw [passArguments_eq]
    simp only [Core.pushes, push_reg (show Reg.eax ≠ .esp by decide)]
  rw [runOps_append, runOps_one, ← hpush]
  exact set_reg_self (runOps alu passArguments c).cpu .eax _

theorem jump_number (s : SystemCall) :
    ¬ s.number.toInt32 < 1 ∧ ¬ 12 < s.number.toInt32 ∧ jump[(s.number - 1).toNat]? = some s := by
  cases s <;> decide

theorem eax_saved (huser : c.cpu.IsUser) (hroom : 56 ≤ esp0.toNat) :
    (runOps alu [.pushal, .pushfl] (interrupt (systemcallGate img) esp0 c)).cpu.reg .eax =
      c.cpu.reg .eax := by
  exact (saved_int80 alu img huser hroom).1.regs .eax (by decide)

theorem int80_eq (huser : c.cpu.IsUser) (hroom : 72 ≤ esp0.toNat)
    (hs : c.cpu.reg .eax = s.number) :
    int80 alu img esp0 c =
      match img.body s (atEntry alu img esp0 s c) with
      | none => none
      | some c' => leaveCall alu img c' := by
  obtain ⟨hlow, hhigh, hjump⟩ := jump_number s
  have heax := eax_saved alu img huser (by omega : 56 ≤ esp0.toNat)
  rw [hs] at heax
  rw [int80, systemcallWrapper, atEntry]
  generalize runOps alu [.pushal, .pushfl] (interrupt (systemcallGate img) esp0 c) = g at heax
  have hreg : (Op.apply alu (.cmp 1 .eax) g).cpu.reg .eax = s.number := heax
  have hreg' : (Op.apply alu (.cmp 12 .eax) (Op.apply alu (.cmp 1 .eax) g)).cpu.reg .eax = s.number :=
    heax
  simp only [hreg, hreg', if_neg hlow, if_neg hhigh, dispatch, eax_passArguments, hjump]

/-- The end of the wrapper gives the caller back its processor, with the value of the function
in EAX. -/
theorem leaveWrapper_restores {b x d flags esp : UInt32} (huser : cpu.IsUser)
    (htop : Top ([b, x, d] ++ savedContext flags esp cpu) c)
    (hsave : img.saveEax + 4 ≤ c.esp.toNat ∨ c.esp.toNat + 68 ≤ img.saveEax) :
    runOps alu (leaveWrapper img) c =
      ⟨cpu.set .eax (c.cpu.reg .eax), storeDword c.mem img.saveEax (c.cpu.reg .eax)⟩ := by
  have hlen : ([b, x, d] ++ savedContext flags esp cpu).length = 17 := by
    rw [List.length_append, savedContext_length, frame_user huser]
    rfl
  have hstored := htop.store alu .eax (by
    rw [hlen]
    exact hsave)
  have hpopped := ((hstored.pop alu (r := .ebx) (by decide)).pop alu (r := .ecx) (by decide)).pop alu
    (r := .edx) (by decide)
  obtain ⟨hregs, hframe⟩ := popped_context alu hpopped
  have hpops : runOps alu (dropArguments img) c =
      Op.apply alu (.pop .edx) (Op.apply alu (.pop .ecx) (Op.apply alu (.pop .ebx)
        (Op.apply alu (.store .eax img.saveEax) c))) := rfl
  rw [leaveWrapper, runOps_append, runOps_append, hpops, restore]
  have hmem := popped_mem alu (Op.apply alu (.pop .edx) (Op.apply alu (.pop .ecx)
    (Op.apply alu (.pop .ebx) (Op.apply alu (.store .eax img.saveEax) c))))
  change _ = storeDword c.mem img.saveEax (c.cpu.reg .eax) at hmem
  generalize runOps alu [.popfl, .popal] (Op.apply alu (.pop .edx) (Op.apply alu (.pop .ecx)
    (Op.apply alu (.pop .ebx) (Op.apply alu (.store .eax img.saveEax) c)))) = g at *
  have hvalue : dwordAt g.mem img.saveEax = c.cpu.reg .eax := by rw [hmem, dwordAt_storeDword]
  have hiret := iret_value alu huser hregs hframe (dwordAt g.mem img.saveEax)
    (g.cpu.eflags ||| interruptFlag)
  rw [hvalue, hmem] at hiret
  rw [← hiret, ← hvalue]
  rfl

theorem int80_returns (huser : c.cpu.IsUser) (hroom : 72 ≤ esp0.toNat)
    (hs : c.cpu.reg .eax = s.number) (hbody : img.body s (atEntry alu img esp0 s c) = some c')
    (hret : Returns 3 esp0.toNat (atEntry alu img esp0 s c) c')
    (hsave : img.saveEax + 72 ≤ esp0.toNat ∨ esp0.toNat ≤ img.saveEax) :
    int80 alu img esp0 c =
      some ⟨c.cpu.set .eax (c'.cpu.reg .eax), storeDword c'.mem img.saveEax (c'.cpu.reg .eax)⟩ := by
  have hcalled := called_atEntry alu img (s := s) huser hroom
  rw [int80_eq alu img huser hroom hs, hbody]
  generalize atEntry alu img esp0 s c = e at hret hcalled
  obtain ⟨flags, x, hafter, hwords⟩ := hcalled.words
  have hesp := hcalled.esp
  have hesp' : c'.esp.toNat = e.esp.toNat + 4 := by
    have hlt := esp0.toNat_lt
    rw [hret.esp, UInt32.toNat_add]
    simp only [UInt32.reduceToNat]
    omega
  have hctx : Stacked e.mem (e.esp.toNat + 4 + 4 * 3) (savedContext flags x c.cpu) := hwords.2.2.2
  have hlen : (savedContext flags x c.cpu).length = 14 := by
    rw [savedContext_length, frame_user huser]
  have htop : Top ([dwordAt c'.mem c'.esp.toNat, dwordAt c'.mem (c'.esp.toNat + 4),
      dwordAt c'.mem (c'.esp.toNat + 4 + 4)] ++ savedContext flags x c.cpu) c' := by
    refine ⟨⟨rfl, rfl, rfl, ?_⟩, ?_⟩
    · rw [hesp']
      exact hctx.congr fun y hlo hhi => hret.above y hlo (by omega)
    · have hlt := esp0.toNat_lt
      simp only [List.length_append, hlen, List.length_cons, List.length_nil]
      omega
  have hafter' : c'.cpu.eip = img.afterCall := by
    rw [hret.eip, ← hafter]
    rfl
  rw [← leaveWrapper_restores alu img huser htop (by omega)]
  exact if_pos hafter'

structure Loaded (s : SystemCall) (c q : Core) : Prop where
  number : q.cpu.reg .eax = s.number
  first : q.cpu.reg .ebx = c.peek 4
  second : q.cpu.reg .ecx = c.peek 8
  third : q.cpu.reg .edx = c.peek 12
  saved : dwordAt q.mem q.esp.toNat = c.cpu.reg .ebx
  others : ∀ r, r = .ebp ∨ r = .esi ∨ r = .edi → q.cpu.reg r = c.cpu.reg r
  esp : q.esp.toNat + 4 = c.esp.toNat
  changed : ChangedIn q.esp.toNat 4 c.mem q.mem
  eip : q.cpu.eip = img.afterInt s
  eflags : q.cpu.eflags = c.cpu.eflags
  cs : q.cpu.cs = c.cpu.cs
  ss : q.cpu.ss = c.cpu.ss

theorem loaded_atInt (s : SystemCall) (hroom : 4 ≤ c.esp.toNat) :
    Loaded img s c (atInt alu img s c) := by
  have hp := pushed_push (c := c) (c.cpu.reg .ebx) hroom
  have hesp := hp.esp
  have hpeek : ∀ i, (c.push (c.cpu.reg .ebx)).peek (i + 4) = c.peek i := by
    intro i
    rw [Core.peek, Core.peek, show (c.push (c.cpu.reg .ebx)).esp.toNat + (i + 4) = c.esp.toNat + i by
      simp only [List.length_singleton] at hesp
      omega]
    exact dwordAt_congr fun x hlo hhi => hp.changed x (by
      simp only [List.length_singleton] at hesp ⊢
      omega)
  have hload : runOps alu (loadArguments s) c = ((((c.push (c.cpu.reg .ebx)).set .eax s.number).set
      .ebx (c.peek 4)).set .ecx (c.peek 8)).set .edx (c.peek 12) := by
    simp only [loadArguments, runOps, List.foldl_cons, List.foldl_nil, Op.apply,
      peek_set (show Reg.eax ≠ .esp by decide), peek_set (show Reg.ebx ≠ .esp by decide),
      peek_set (show Reg.ecx ≠ .esp by decide), ← hpeek]
  rw [atInt, hload]
  exact ⟨rfl, rfl, rfl, rfl, hp.stacked.1, by rintro r (rfl | rfl | rfl) <;> rfl, hp.esp, hp.changed,
    rfl, rfl, rfl, rfl⟩

structure CallReturns (c r : Core) : Prop where
  eip : r.cpu.eip = c.peek 0
  esp : r.esp = c.esp + 4
  kept : ∀ x, x = .ebx ∨ x = .ebp ∨ x = .esi ∨ x = .edi → r.cpu.reg x = c.cpu.reg x
  eflags : r.cpu.eflags = c.cpu.eflags
  cs : r.cpu.cs = c.cpu.cs
  ss : r.cpu.ss = c.cpu.ss

theorem doCall_end {q r : Core} {v : UInt32} (hq : Loaded img s c q) (hroom : 4 ≤ c.esp.toNat)
    (hr : r.cpu = q.cpu.set .eax v) (hslots : Stacked r.mem q.esp.toNat [c.cpu.reg .ebx, c.peek 0]) :
    CallReturns c (runOps alu [.pop .ebx, .ret] r) ∧
      (runOps alu [.pop .ebx, .ret] r).cpu.reg .eax = v ∧
      (runOps alu [.pop .ebx, .ret] r).mem = r.mem := by
  have hesp : r.esp = q.esp := by
    rw [Core.esp, hr]
    exact set_reg_ne (by decide) _ _
  have hlt := c.esp.toNat_lt
  have hqesp := hq.esp
  have hback : q.esp + 4 = c.esp := by
    apply UInt32.toNat_inj.mp
    rw [UInt32.toNat_add]
    simp only [UInt32.reduceToNat]
    omega
  have hdrop : (Op.apply alu (.pop .ebx) r).esp = c.esp := by
    rw [← hback, ← hesp]
    exact set_reg_self r.cpu .esp _
  have hebx : r.peek 0 = c.cpu.reg .ebx := by
    rw [Core.peek, hesp]
    exact hslots.1
  have heip : (Op.apply alu (.pop .ebx) r).peek 0 = c.peek 0 := by
    rw [Core.peek, hdrop, ← hqesp]
    exact hslots.2.1
  have hother : ∀ x, x ≠ .esp → x ≠ .ebx → (runOps alu [.pop .ebx, .ret] r).cpu.reg x = r.cpu.reg x :=
    fun x h1 h2 => (set_reg_ne h1 _ _).trans ((set_reg_ne h2 _ _).trans (set_reg_ne h1 _ _))
  have hkept : ∀ x, x ≠ .eax → r.cpu.reg x = q.cpu.reg x := fun x hx => by
    rw [hr, set_reg_ne hx]
  refine ⟨⟨heip, ?_, ?_, ?_, ?_, ?_⟩, ?_, rfl⟩
  · rw [← hdrop]
    exact set_reg_self (Op.apply alu (.pop .ebx) r).cpu .esp _
  · rintro x (rfl | hx)
    · exact hebx
    · have hne : x ≠ .esp ∧ x ≠ .ebx ∧ x ≠ .eax := by
        obtain rfl | rfl | rfl := hx <;> decide
      rw [hother x hne.1 hne.2.1, hkept x hne.2.2, hq.others x hx]
  · exact (congrArg Cpu.eflags hr).trans hq.eflags
  · exact (congrArg Cpu.cs hr).trans hq.cs
  · exact (congrArg Cpu.ss hr).trans hq.ss
  · rw [hother .eax (by decide) (by decide), hr, set_reg_self]

/-- The words that `DO_CALL` and the wrapper keep are apart: those on the stack of the process in
the kernel, the two on its own stack, and `save_eax`. -/
structure Apart (esp0 : UInt32) (c : Core) : Prop where
  kernelRoom : 72 ≤ esp0.toNat
  userRoom : 4 ≤ c.esp.toNat
  between : c.esp.toNat + 76 ≤ esp0.toNat ∨ esp0.toNat + 4 ≤ c.esp.toNat
  kernelSave : img.saveEax + 72 ≤ esp0.toNat ∨ esp0.toNat ≤ img.saveEax
  userSave : img.saveEax + 8 ≤ c.esp.toNat ∨ c.esp.toNat + 4 ≤ img.saveEax

/-- A C library call reaches its own function in the kernel with the arguments of its caller, and
if the function returns as C functions do, the call returns its value as C functions do. The call is
not interrupted between the store to `save_eax` and its reload. -/
theorem doCall_calls (huser : c.cpu.IsUser) (h : Apart img esp0 c) (s : SystemCall) :
    ∃ e : Core, e.cpu.eip = img.entry s ∧ e.peek 0 = img.afterCall ∧
      [e.peek 4, e.peek 8, e.peek 12] = [c.peek 4, c.peek 8, c.peek 12] ∧
      (∀ a, (a + 4 < c.esp.toNat ∨ c.esp.toNat ≤ a) → (a + 72 < esp0.toNat ∨ esp0.toNat ≤ a) →
        e.mem a = c.mem a) ∧
      (img.body s e = none → doCall alu img esp0 s c = none) ∧
      ∀ c', img.body s e = some c' → Returns 3 esp0.toNat e c' →
        AgreeOn (c.esp.toNat - 4) (c.esp.toNat + 4) e.mem c'.mem →
        ∃ r, doCall alu img esp0 s c = some r ∧ CallReturns c r ∧
          r.cpu.reg .eax = c'.cpu.reg .eax ∧
          r.mem = storeDword c'.mem img.saveEax (c'.cpu.reg .eax) := by
  have hq := loaded_atInt alu img s h.userRoom
  have huser' : (atInt alu img s c).cpu.IsUser := by
    rw [Cpu.IsUser, hq.cs]
    exact huser
  have hcalled := called_atEntry alu img (s := s) huser' h.kernelRoom
  have heq := int80_eq alu img huser' h.kernelRoom hq.number
  have hreturns := fun (c' : Core) (hbody : _ = some c') hret => int80_returns alu img huser' h.kernelRoom hq.number hbody
    hret h.kernelSave
  simp only [doCall]
  generalize atEntry alu img esp0 s (atInt alu img s c) = e at hcalled heq hreturns
  generalize atInt alu img s c = q at *
  have hqesp := hq.esp
  have hesp := hcalled.esp
  obtain ⟨flags, x, hafter, hfirst, hsecond, hthird, -⟩ := hcalled.words
  refine ⟨e, hcalled.eip, hafter, ?_, fun a ha hk => ?_,
    fun hnone => ?_, fun c' hbody hret hslots => ?_⟩
  · rw [← hq.first, ← hq.second, ← hq.third, ← hfirst, ← hsecond, ← hthird]
    rfl
  · rw [hcalled.changed a (by omega), hq.changed a (by omega)]
  · rw [heq, hnone]
  · have hreturns := hreturns c' hbody hret
    have hkernel := h.between
    have hsave := h.userSave
    have hret0 : dwordAt q.mem (q.esp.toNat + 4) = c.peek 0 := by
      rw [hqesp]
      exact dwordAt_congr fun y hlo hhi => hq.changed y (by omega)
    have hslots' : Stacked (storeDword c'.mem img.saveEax (c'.cpu.reg .eax))
        q.esp.toNat [c.cpu.reg .ebx, c.peek 0] := by
      have hstack : Stacked q.mem q.esp.toNat
          [c.cpu.reg .ebx, c.peek 0] := ⟨hq.saved, hret0, trivial⟩
      refine hstack.congr fun y hlo hhi => ?_
      simp only [List.length_cons, List.length_nil] at hhi
      rw [changedIn_storeDword _ _ _ y (by omega), ← hslots y (by omega) (by omega),
        hcalled.changed y (by omega)]
    generalize hr : (⟨q.cpu.set .eax (c'.cpu.reg .eax),
      storeDword c'.mem img.saveEax (c'.cpu.reg .eax)⟩ : Core) = r at hreturns
    have hcpu : r.cpu = q.cpu.set .eax (c'.cpu.reg .eax) := hr ▸ rfl
    have hmem : r.mem = storeDword c'.mem img.saveEax (c'.cpu.reg .eax) := hr ▸ rfl
    rw [← hmem] at hslots' ⊢
    obtain ⟨hend, heax, hkeep⟩ := doCall_end alu img hq h.userRoom hcpu hslots'
    refine ⟨_, ?_, hend, heax, hkeep⟩
    rw [hreturns]
    exact if_pos ((congrArg Cpu.eip hcpu).trans hq.eip)

def seven (e : Core) : Option Core :=
  some { e.drop 4 with cpu := { (e.drop 4).cpu.set .eax 7 with eip := e.peek 0 } }

theorem returns_seven (n top : Nat) (e : Core) :
    ∃ c, seven e = some c ∧ Returns n top e c ∧ c.cpu.reg .eax = 7 ∧ c.mem = e.mem := by
  refine ⟨_, rfl, ⟨rfl, ?_, rfl, fun _ _ _ => rfl⟩, ?_, rfl⟩
  · change ((e.drop 4).cpu.set .eax 7).reg .esp = _
    rw [set_reg_ne (by decide)]
    exact set_reg_self e.cpu .esp _
  · exact set_reg_self (e.drop 4).cpu .eax 7

def keepFlags : Alu := fun _ flags _ _ => flags

def tinyImage : Image :=
  ⟨0x420000, 0x400100, 0x400200, fun _ => 0x8048100, fun _ => 0x401000, fun _ => seven⟩

def tinyCaller : Core :=
  ⟨⟨fun r => if r = .esp then 0x83FFF00 else 99, 0x202, 0x8048050, 0x23, 0x2B⟩, fun _ => 0⟩

theorem doCall_calls_tiny : ∃ r, doCall keepFlags tinyImage 0x7FDFFC .read tinyCaller = some r ∧
    CallReturns tinyCaller r ∧ r.cpu.reg .eax = 7 := by
  have hapart : Apart tinyImage 0x7FDFFC tinyCaller :=
    ⟨by decide, by decide, by decide, by decide, by decide⟩
  obtain ⟨e, -, -, -, -, -, hcall⟩ := doCall_calls keepFlags tinyImage (by decide) hapart .read
  obtain ⟨c', hc', hret, h7, hmem⟩ := returns_seven 3 (UInt32.toNat 0x7FDFFC) e
  obtain ⟨r, hr, hreturns, heax, -⟩ := hcall c' hc' hret fun a _ _ => by rw [hmem]
  exact ⟨r, hr, hreturns, heax.trans h7⟩

theorem number_refused {v : UInt32} (hno : ∀ s : SystemCall, v ≠ s.number) :
    v.toInt32 < 1 ∨ 12 < v.toInt32 := by
  by_contra hin
  rw [not_or, Int32.lt_iff_toInt_lt, Int32.lt_iff_toInt_lt, ← Int32.toInt_toBitVec v.toInt32,
    UInt32.toBitVec_toInt32, BitVec.toInt_eq_toNat_cond] at hin
  have hlow : (1 : Int32).toInt = 1 := by decide
  have hhigh : (12 : Int32).toInt = 12 := by decide
  have hn : 1 ≤ v.toNat ∧ v.toNat ≤ 12 := by
    have hlt := v.toNat_lt
    have heq : v.toBitVec.toNat = v.toNat := rfl
    rw [hlow, hhigh, heq] at hin
    split at hin <;> omega
  have hjump : ∃ s ∈ jump, s.number.toNat = v.toNat := by
    obtain ⟨hlo, hhi⟩ := hn
    generalize v.toNat = n at hlo hhi
    interval_cases n <;> decide
  obtain ⟨s, -, hs⟩ := hjump
  exact hno s (UInt32.toNat_inj.mp hs.symm)

theorem invalid_restores {flags esp : UInt32} (huser : cpu.IsUser)
    (htop : Top (savedContext flags esp cpu) c) :
    runOps alu invalid c = ⟨cpu.set .eax (-1), c.mem⟩ := by
  obtain ⟨hregs, hframe⟩ := popped_context alu htop
  rw [invalid, runOps_append, restore]
  have hmem := popped_mem alu c
  generalize runOps alu [.popfl, .popal] c = g at hregs hframe hmem
  rw [← hmem]
  exact iret_value alu huser hregs hframe (-1) (g.cpu.eflags ||| interruptFlag)

/-- `INT $0x80` with any other number has no effect but the value -1. -/
theorem int80_refuses (huser : c.cpu.IsUser) (hroom : 56 ≤ esp0.toNat)
    (hno : ∀ s : SystemCall, c.cpu.reg .eax ≠ s.number) :
    ∃ m, int80 alu img esp0 c = some ⟨c.cpu.set .eax (-1), m⟩ ∧
      ChangedIn (esp0.toNat - 56) 56 c.mem m := by
  obtain ⟨hsaved, -⟩ := saved_int80 alu img huser hroom
  have heax := eax_saved alu img huser hroom
  rw [int80, systemcallWrapper]
  generalize runOps alu [.pushal, .pushfl] (interrupt (systemcallGate img) esp0 c) = g at hsaved heax
  obtain ⟨flags, x, hctx⟩ := hsaved.stacked
  have hesp := hsaved.esp
  have hchanged := hsaved.changed
  rw [savedContext_length, frame_user huser] at hesp hchanged
  have hfits : g.esp.toNat + 4 * (savedContext flags x c.cpu).length < 4294967296 := by
    have hlt := esp0.toNat_lt
    rw [savedContext_length, frame_user huser]
    omega
  have hend : ∀ v, runOps alu invalid (g.setFlags v) = ⟨c.cpu.set .eax (-1), g.mem⟩ := fun v =>
    invalid_restores alu (c := g.setFlags v) huser ⟨hctx, hfits⟩
  refine ⟨g.mem, ?_, hchanged.widen (by omega) (by omega)⟩
  have hreg : (Op.apply alu (.cmp 1 .eax) g).cpu.reg .eax = c.cpu.reg .eax := heax
  have hreg' : (Op.apply alu (.cmp 12 .eax) (Op.apply alu (.cmp 1 .eax) g)).cpu.reg .eax =
    c.cpu.reg .eax := heax
  simp only [hreg, hreg']
  by_cases hlow : (c.cpu.reg .eax).toInt32 < 1
  · rw [if_pos hlow]
    exact congrArg some (hend _)
  · rw [if_neg hlow, if_pos ((number_refused hno).resolve_left hlow)]
    exact congrArg some (hend (alu .cmp (alu .cmp g.cpu.eflags (g.cpu.reg .eax) 1) (g.cpu.reg .eax) 12))

theorem int80_refuses_tiny : ∃ m, int80 keepFlags tinyImage 0x7FDFFC tinyCaller =
    some ⟨tinyCaller.cpu.set .eax (-1), m⟩ ∧
      ChangedIn ((0x7FDFFC : UInt32).toNat - 56) 56 tinyCaller.mem m :=
  int80_refuses keepFlags tinyImage (by decide) (by decide) fun s => by cases s <;> decide

def interruptWords (c : Cpu) : Nat := 10 + (interruptFrame c).length

def atHandler (locks : Bool) (after entry : UInt32) (c : Core) : Core :=
  call after entry (runOps alu [.pushal, .pushfl] (if locks then Op.cli.apply alu c else c))

/-- The end of a wrapper gives the interrupted code its processor back. In the kernel the stack
has to end where it was. -/
theorem leaveInterrupt_restores {flags esp : UInt32} (locks : Bool) {after : UInt32}
    (heip : c.cpu.eip = after) (htop : Top (savedContext flags esp cpu) c)
    (hsame : ¬ cpu.IsUser → c.esp.toNat + 48 = (cpu.reg .esp).toNat ∧ c.cpu.ss = cpu.ss) :
    leaveInterrupt alu locks after c = some ⟨cpu, c.mem⟩ := by
  obtain ⟨hregs, hframe⟩ := popped_context alu htop
  have hesp := popped_esp alu c
  have hmem := popped_mem alu c
  have hss : (runOps alu [.popfl, .popal] c).cpu.ss = c.cpu.ss := rfl
  rw [leaveInterrupt, if_pos heip]
  simp only [restore]
  generalize runOps alu [.popfl, .popal] c = p at *
  have hsame' : ¬ cpu.IsUser → p.esp + 12 = cpu.reg .esp ∧ p.cpu.ss = cpu.ss := by
    intro hkernel
    obtain ⟨hback, hss'⟩ := hsame hkernel
    have hlt := (cpu.reg .esp).toNat_lt
    refine ⟨UInt32.toNat_inj.mp ?_, hss.trans hss'⟩
    rw [hesp, UInt32.toNat_add, UInt32.toNat_add, UInt32.toNat_add]
    simp only [UInt32.reduceToNat]
    omega
  rw [← hmem]
  cases locks with
  | true =>
    exact congrArg some
      (iret_restores alu (c := p.setFlags _) hregs ⟨hframe.stacked, hframe.fits⟩ hsame')
  | false => exact congrArg some (iret_restores alu hregs hframe hsame')

theorem saved_handler (g : Gate) (esp0 : UInt32) (locks : Bool)
    (hroom : 4 * interruptWords c.cpu ≤ (interruptBase esp0 c.cpu).toNat) :
    ∃ q, (∀ after entry, atHandler alu locks after entry (interrupt g esp0 c) = call after entry q) ∧
      Saved (interruptBase esp0 c.cpu) c.cpu c.mem q ∧
      q.cpu.ss = if c.cpu.IsUser then g.ss else c.cpu.ss := by
  rw [interruptWords] at hroom
  have he := entered_interrupt (c := c) g esp0 (by omega)
  have he' : Entered g esp0 c
      (if locks then Op.cli.apply alu (interrupt g esp0 c) else interrupt g esp0 c) := by
    cases locks with
    | true => exact he.setFlags _
    | false => exact he
  exact ⟨_, fun _ _ => rfl, saved_entered alu he' (by rw [savedContext_length]; omega)⟩

/-- An interrupt is not seen by the code that it interrupts, a program or the kernel, if its C
function returns as C functions do. -/
theorem interruptWrapper_restores (g : Gate) (locks : Bool) (after entry : UInt32)
    (handler : Core → Option Core)
    (hroom : 4 * interruptWords c.cpu ≤ (interruptBase esp0 c.cpu).toNat)
    (hhandler : handler (atHandler alu locks after entry (interrupt g esp0 c)) = some c')
    (hret : Returns 0 (interruptBase esp0 c.cpu).toNat
      (atHandler alu locks after entry (interrupt g esp0 c)) c') :
    interruptWrapper alu locks after entry handler (interrupt g esp0 c) = some ⟨c.cpu, c'.mem⟩ := by
  obtain ⟨q, hq, hsaved, hss⟩ := saved_handler alu (c := c) g esp0 locks hroom
  have hwrapper : interruptWrapper alu locks after entry handler (interrupt g esp0 c) =
      match handler (atHandler alu locks after entry (interrupt g esp0 c)) with
      | none => none
      | some c => leaveInterrupt alu locks after c := rfl
  rw [interruptWords] at hroom
  rw [hq] at hret
  rw [hwrapper, hhandler]
  obtain ⟨flags, x, hctx⟩ := hsaved.stacked
  have hesp := hsaved.esp
  rw [savedContext_length] at hesp
  obtain ⟨hcall, hafter, hcalled⟩ := pushed_call (c := q) after entry (by omega)
  have hlt := (interruptBase esp0 c.cpu).toNat_lt
  have hback : c'.esp.toNat = q.esp.toNat := by
    rw [hret.esp, UInt32.toNat_add]
    simp only [UInt32.reduceToNat]
    omega
  have htop : Top (savedContext flags x c.cpu) c' := by
    have hq : Top (savedContext flags x c.cpu) q := ⟨hctx, by rw [savedContext_length]; omega⟩
    apply hq.congr (UInt32.toNat_inj.mp hback)
    intro y hlo hhi
    rw [savedContext_length] at hhi
    rw [← hret.above y (by omega) (by omega), hcalled y (by omega)]
  apply leaveInterrupt_restores alu locks (hret.eip.trans ((Core.peek_zero _).trans hafter.1)) htop
  intro hkernel
  rw [interruptBase, if_neg hkernel] at hesp
  have hthree : (interruptFrame c.cpu).length = 3 := by
    rw [interruptFrame, if_neg hkernel]
    rfl
  refine ⟨by omega, ?_⟩
  rw [hret.ss, call_ss, hss, if_neg hkernel]

theorem interruptWrapper_restores_tiny :
    ∃ m, rtcWrapper keepFlags 0x400300 0x401000 seven
        (interrupt ⟨0x400280, kernelCs, kernelDs⟩ 0x7FDFFC tinyCaller) =
      some ⟨tinyCaller.cpu, m⟩ := by
  obtain ⟨c', hc', hret, -⟩ := returns_seven 0 (interruptBase 0x7FDFFC tinyCaller.cpu).toNat
    (atHandler keepFlags false 0x400300 0x401000
      (interrupt ⟨0x400280, kernelCs, kernelDs⟩ 0x7FDFFC tinyCaller))
  exact ⟨_, interruptWrapper_restores keepFlags ⟨0x400280, kernelCs, kernelDs⟩ false 0x400300
    0x401000 seven (by decide) hc' hret⟩

end RedstoneOS.Linkage
