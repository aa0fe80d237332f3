import RedstoneOS.Library.ByteMemory

namespace RedstoneOS.Library.Processor

open ByteMemory

inductive Reg
  | eax
  | ecx
  | edx
  | ebx
  | esp
  | ebp
  | esi
  | edi
  deriving DecidableEq

structure Cpu where
  reg : Reg → UInt32
  eflags : UInt32
  eip : UInt32
  cs : UInt32
  ss : UInt32

structure Core where
  cpu : Cpu
  mem : Memory UInt8

def dword (v : UInt32) : List UInt8 :=
  [UInt8.ofNat v.toNat, UInt8.ofNat (v.toNat / 256), UInt8.ofNat (v.toNat / 65536),
    UInt8.ofNat (v.toNat / 16777216)]

def dwordAt (m : Memory UInt8) (a : Nat) : UInt32 :=
  UInt32.ofNat ((m a).toNat + 256 * (m (a + 1)).toNat + 65536 * (m (a + 2)).toNat +
    16777216 * (m (a + 3)).toNat)

def storeDword (m : Memory UInt8) (a : Nat) (v : UInt32) : Memory UInt8 := place m a (dword v)

def interruptFlag : UInt32 := 0x200

def gateFlags : UInt32 := 0x34300

def Cpu.IsUser (c : Cpu) : Prop := c.cs &&& 3 ≠ 0

instance (c : Cpu) : Decidable c.IsUser := inferInstanceAs (Decidable (_ ≠ _))

def Cpu.set (r : Reg) (v : UInt32) (c : Cpu) : Cpu := { c with reg := Function.update c.reg r v }

namespace Core

def esp (c : Core) : UInt32 := c.cpu.reg .esp

def set (r : Reg) (v : UInt32) (c : Core) : Core := { c with cpu := c.cpu.set r v }

def setFlags (v : UInt32) (c : Core) : Core := { c with cpu := { c.cpu with eflags := v } }

def peek (d : Nat) (c : Core) : UInt32 := dwordAt c.mem (c.esp.toNat + d)

theorem peek_zero (c : Core) : c.peek 0 = dwordAt c.mem c.esp.toNat := rfl

def drop (n : UInt32) (c : Core) : Core := c.set .esp (c.esp + n)

def push (v : UInt32) (c : Core) : Core :=
  { cpu := c.cpu.set .esp (c.esp - 4), mem := storeDword c.mem (c.esp - 4).toNat v }

def pushes : List UInt32 → Core → Core
  | [], c => c
  | d :: ds, c => push d (pushes ds c)

end Core

inductive Op
  | push (r : Reg)
  | pushConstant (v : UInt32)
  | pop (r : Reg)
  | pushal
  | popal
  | pushfl
  | popfl
  | constant (v : UInt32) (r : Reg)
  | fromStack (d : Nat) (r : Reg)
  | move (src dst : Reg)
  | store (r : Reg) (a : Nat)
  | load (a : Nat) (r : Reg)
  | cmp (v : UInt32) (r : Reg)
  | or (v : UInt32) (r : Reg)
  | reserve (n : UInt32)
  | dec (r : Reg)
  | cli
  | sti
  | leave
  | ret
  | iret

inductive Arith
  | cmp
  | or
  | sub
  | dec

/-- The flags after an arithmetic instruction, from the flags before it and its operands. No code
here looks at them but through the jumps behind a comparison, which compare themselves. -/
abbrev Alu := Arith → UInt32 → UInt32 → UInt32 → UInt32

variable (alu : Alu)

def Op.apply : Op → Core → Core
  | .push r, c => c.push (c.cpu.reg r)
  | .pushConstant v, c => c.push v
  | .pop r, c => (c.drop 4).set r (c.peek 0)
  | .pushal, c => c.pushes [c.cpu.reg .edi, c.cpu.reg .esi, c.cpu.reg .ebp, c.cpu.reg .esp,
      c.cpu.reg .ebx, c.cpu.reg .edx, c.cpu.reg .ecx, c.cpu.reg .eax]
  | .popal, c => ((((((((c.drop 32).set .edi (c.peek 0)).set .esi (c.peek 4)).set .ebp
      (c.peek 8)).set .ebx (c.peek 16)).set .edx (c.peek 20)).set .ecx (c.peek 24)).set .eax
      (c.peek 28))
  | .pushfl, c => c.push c.cpu.eflags
  | .popfl, c => (c.drop 4).setFlags (c.peek 0)
  | .constant v r, c => c.set r v
  | .fromStack d r, c => c.set r (c.peek d)
  | .move src dst, c => c.set dst (c.cpu.reg src)
  | .store r a, c => { c with mem := storeDword c.mem a (c.cpu.reg r) }
  | .load a r, c => c.set r (dwordAt c.mem a)
  | .cmp v r, c => c.setFlags (alu .cmp c.cpu.eflags (c.cpu.reg r) v)
  | .or v r, c => (c.set r (c.cpu.reg r ||| v)).setFlags (alu .or c.cpu.eflags (c.cpu.reg r) v)
  | .reserve n, c => (c.set .esp (c.esp - n)).setFlags (alu .sub c.cpu.eflags c.esp n)
  | .dec r, c => (c.set r (c.cpu.reg r - 1)).setFlags (alu .dec c.cpu.eflags (c.cpu.reg r) 1)
  | .cli, c => c.setFlags (c.cpu.eflags &&& ~~~interruptFlag)
  | .sti, c => c.setFlags (c.cpu.eflags ||| interruptFlag)
  | .leave, c =>
    let c := c.set .esp (c.cpu.reg .ebp)
    (c.drop 4).set .ebp (c.peek 0)
  | .ret, c => { c.drop 4 with cpu := { (c.drop 4).cpu with eip := c.peek 0 } }
  | .iret, c =>
    let cpu := { c.cpu with eip := c.peek 0, cs := c.peek 4, eflags := c.peek 8 }
    if cpu.IsUser then
      { c with cpu := { cpu.set .esp (c.peek 12) with ss := c.peek 16 } }
    else { c with cpu := cpu.set .esp (c.esp + 12) }

def runOps (code : List Op) (c : Core) : Core := code.foldl (fun c o => o.apply alu c) c

theorem runOps_append (k l : List Op) (c : Core) :
    runOps alu (k ++ l) c = runOps alu l (runOps alu k c) := List.foldl_append

theorem runOps_one (o : Op) (c : Core) : runOps alu [o] c = o.apply alu c := rfl

/-- What an interrupt leaves on the stack. Only one that enters the kernel changes the stack. -/
def interruptFrame (c : Cpu) : List UInt32 :=
  if c.IsUser then [c.eip, c.cs, c.eflags, c.reg .esp, c.ss] else [c.eip, c.cs, c.eflags]

theorem interruptFrame_set {r : Reg} (hr : r ≠ .esp) (c : Cpu) (v : UInt32) :
    interruptFrame (c.set r v) = interruptFrame c := by
  have hesp : (c.set r v).reg .esp = c.reg .esp := Function.update_of_ne (Ne.symm hr) _ _
  rw [interruptFrame, interruptFrame, hesp]
  rfl

structure Gate where
  handler : UInt32
  cs : UInt32
  ss : UInt32

def enterStack (g : Gate) (esp0 : UInt32) (c : Core) : Core :=
  if c.cpu.IsUser then { c with cpu := { c.cpu.set .esp esp0 with ss := g.ss } } else c

def interrupt (g : Gate) (esp0 : UInt32) (c : Core) : Core :=
  let c' := (enterStack g esp0 c).pushes (interruptFrame c.cpu)
  { c' with cpu := { c'.cpu with
      eip := g.handler, cs := g.cs, eflags := c.cpu.eflags &&& ~~~gateFlags } }

def Stacked (m : Memory UInt8) : Nat → List UInt32 → Prop
  | _, [] => True
  | a, d :: ds => dwordAt m a = d ∧ Stacked m (a + 4) ds

variable {m m' : Memory UInt8} {a : Nat} {d v : UInt32} {ds ds' : List UInt32} {c c' c'' e : Core}
  {cpu : Cpu} {r : Reg}

theorem dwordAt_eq {b : Nat} (h : ∀ j, j < 4 → m (a + j) = m' (b + j)) :
    dwordAt m a = dwordAt m' b := by
  have h0 := h 0 (by decide)
  rw [Nat.add_zero, Nat.add_zero] at h0
  simp only [dwordAt, h0, h 1 (by decide), h 2 (by decide), h 3 (by decide)]

theorem dwordAt_congr (h : AgreeOn a (a + 4) m m') : dwordAt m a = dwordAt m' a :=
  dwordAt_eq fun j hj => h (a + j) (by omega) (by omega)

theorem dwordAt_storeDword (m : Memory UInt8) (a : Nat) (v : UInt32) :
    dwordAt (storeDword m a v) a = v := by
  have hv := v.toNat_lt
  have hbyte : ∀ i, i < 4 → storeDword m a v (a + i) = (dword v).getD i 0 := by
    intro i hi
    rw [storeDword, place_inside _ _ (by simpa [dword] using hi)]
    exact (List.getD_eq_getElem _ _ _).symm
  have h0 := hbyte 0 (by omega)
  rw [Nat.add_zero] at h0
  rw [dwordAt, h0, hbyte 1 (by omega), hbyte 2 (by omega), hbyte 3 (by omega)]
  apply UInt32.toNat_inj.mp
  simp only [dword, List.getD_cons_zero, List.getD_cons_succ, UInt8.toNat_ofNat',
    UInt32.toNat_ofNat']
  omega

theorem changedIn_storeDword (m : Memory UInt8) (a : Nat) (v : UInt32) :
    ChangedIn a 4 m (storeDword m a v) :=
  changedIn_place m le_rfl (by simp [dword])

theorem Stacked.congr (h : Stacked m a ds) (hm : AgreeOn a (a + 4 * ds.length) m m') :
    Stacked m' a ds := by
  induction ds generalizing a with
  | nil => trivial
  | cons d ds ih =>
    rw [List.length_cons] at hm
    refine ⟨?_, ih h.2 fun x hlo hhi => hm x (by omega) (by omega)⟩
    rw [← h.1]
    exact (dwordAt_congr fun x hlo hhi => hm x hlo (by omega)).symm

theorem stacked_append : Stacked m a (ds ++ ds') ↔
    Stacked m a ds ∧ Stacked m (a + 4 * ds.length) ds' := by
  induction ds generalizing a with
  | nil => simp [Stacked]
  | cons d ds ih =>
    rw [List.cons_append, Stacked, Stacked, ih, and_assoc, List.length_cons,
      show a + 4 + 4 * ds.length = a + 4 * (ds.length + 1) by omega]

@[simp] theorem set_reg_self (c : Cpu) (r : Reg) (v : UInt32) : (c.set r v).reg r = v :=
  Function.update_self _ _ _

theorem set_reg_ne {r' : Reg} (hr : r' ≠ r) (c : Cpu) (v : UInt32) :
    (c.set r v).reg r' = c.reg r' := Function.update_of_ne hr _ _

@[simp] theorem set_ss (c : Cpu) (r : Reg) (v : UInt32) : (c.set r v).ss = c.ss := rfl

theorem push_cpu (v : UInt32) (c : Core) : (c.push v).cpu = c.cpu.set .esp (c.esp - 4) := rfl

theorem push_reg (hr : r ≠ .esp) (v : UInt32) (c : Core) : (c.push v).cpu.reg r = c.cpu.reg r :=
  set_reg_ne hr _ _

theorem peek_set (hr : r ≠ .esp) (v : UInt32) (i : Nat) (c : Core) :
    (c.set r v).peek i = c.peek i := by
  have hesp : (c.set r v).esp = c.esp := set_reg_ne (Ne.symm hr) _ _
  rw [Core.peek, Core.peek, hesp]
  rfl

@[simp] theorem set_set (c : Cpu) (r : Reg) (v w : UInt32) : (c.set r v).set r w = c.set r w := by
  simp only [Cpu.set, Function.update_idem]

structure Pushed (ds : List UInt32) (c c' : Core) : Prop where
  esp : c'.esp.toNat + 4 * ds.length = c.esp.toNat
  cpu : c'.cpu = c.cpu.set .esp c'.esp
  stacked : Stacked c'.mem c'.esp.toNat ds
  changed : ChangedIn c'.esp.toNat (4 * ds.length) c.mem c'.mem

theorem pushed_nil (c : Core) : Pushed [] c c where
  esp := rfl
  cpu := by
    simp only [Cpu.set, Core.esp, Function.update_eq_self]
  stacked := trivial
  changed := changedIn_refl _ _ _

theorem pushed_push (v : UInt32) (hroom : 4 ≤ c.esp.toNat) : Pushed [v] c (c.push v) := by
  have hesp : (c.push v).esp = c.esp - 4 := set_reg_self _ _ _
  have hsub : (c.esp - 4).toNat = c.esp.toNat - 4 :=
    UInt32.toNat_sub_of_le _ _ (UInt32.le_iff_toNat_le.mpr hroom)
  refine ⟨?_, ?_, ⟨?_, trivial⟩, ?_⟩
  · rw [hesp, hsub]
    simp only [List.length_singleton]
    omega
  · rw [hesp]
    rfl
  · rw [hesp]
    exact dwordAt_storeDword _ _ _
  · rw [hesp]
    exact changedIn_storeDword _ _ _

theorem Pushed.trans (h : Pushed ds c c') (h' : Pushed ds' c' c'') :
    Pushed (ds' ++ ds) c c'' := by
  have hesp := h.esp
  have hesp' := h'.esp
  refine ⟨?_, ?_, stacked_append.mpr ⟨h'.stacked, ?_⟩, ?_⟩
  · rw [List.length_append]
    omega
  · rw [h'.cpu, h.cpu, set_set]
  · rw [hesp']
    exact h.stacked.congr fun x hlo hhi => (h'.changed x (by omega)).symm
  · rw [List.length_append]
    exact (h.changed.widen (by omega) (by omega)).trans (h'.changed.widen (by omega) (by omega))

theorem pushed_pushes (ds : List UInt32) (hroom : 4 * ds.length ≤ c.esp.toNat) :
    Pushed ds c (c.pushes ds) := by
  induction ds with
  | nil => exact pushed_nil c
  | cons d ds ih =>
    rw [List.length_cons] at hroom
    have hds := ih (by omega)
    have hesp := hds.esp
    exact hds.trans (pushed_push d (by omega))

def interruptBase (esp0 : UInt32) (c : Cpu) : UInt32 := if c.IsUser then esp0 else c.reg .esp

structure Entered (g : Gate) (esp0 : UInt32) (c c' : Core) : Prop where
  esp : c'.esp.toNat + 4 * (interruptFrame c.cpu).length = (interruptBase esp0 c.cpu).toNat
  regs : ∀ r, r ≠ .esp → c'.cpu.reg r = c.cpu.reg r
  eip : c'.cpu.eip = g.handler
  cs : c'.cpu.cs = g.cs
  ss : c'.cpu.ss = if c.cpu.IsUser then g.ss else c.cpu.ss
  stacked : Stacked c'.mem c'.esp.toNat (interruptFrame c.cpu)
  changed : ChangedIn c'.esp.toNat (4 * (interruptFrame c.cpu).length) c.mem c'.mem

theorem enterStack_eq (g : Gate) (esp0 : UInt32) (c : Core) :
    (enterStack g esp0 c).esp = interruptBase esp0 c.cpu ∧ (enterStack g esp0 c).mem = c.mem ∧
      (∀ r, r ≠ .esp → (enterStack g esp0 c).cpu.reg r = c.cpu.reg r) ∧
      (enterStack g esp0 c).cpu.ss = if c.cpu.IsUser then g.ss else c.cpu.ss := by
  by_cases huser : c.cpu.IsUser
  · rw [enterStack, interruptBase, if_pos huser, if_pos huser, if_pos huser]
    exact ⟨set_reg_self c.cpu .esp esp0, rfl, fun r hr => set_reg_ne hr _ _, rfl⟩
  · rw [enterStack, interruptBase, if_neg huser, if_neg huser, if_neg huser]
    exact ⟨rfl, rfl, fun _ _ => rfl, rfl⟩

theorem entered_interrupt (g : Gate) (esp0 : UInt32)
    (hroom : 4 * (interruptFrame c.cpu).length ≤ (interruptBase esp0 c.cpu).toNat) :
    Entered g esp0 c (interrupt g esp0 c) := by
  obtain ⟨hesp, hmem, hregs, hss⟩ := enterStack_eq g esp0 c
  have hp : Pushed (interruptFrame c.cpu) (enterStack g esp0 c)
      ((enterStack g esp0 c).pushes (interruptFrame c.cpu)) :=
    pushed_pushes _ (by rwa [hesp])
  refine ⟨?_, fun r hr => ?_, rfl, rfl, ?_, hp.stacked, hmem ▸ hp.changed⟩
  · exact hp.esp.trans (congrArg UInt32.toNat hesp)
  · change ((enterStack g esp0 c).pushes (interruptFrame c.cpu)).cpu.reg r = _
    rw [hp.cpu, set_reg_ne hr, hregs r hr]
  · change ((enterStack g esp0 c).pushes (interruptFrame c.cpu)).cpu.ss = _
    rw [hp.cpu, ← hss]
    rfl

structure Top (ds : List UInt32) (c : Core) : Prop where
  stacked : Stacked c.mem c.esp.toNat ds
  fits : c.esp.toNat + 4 * ds.length < 4294967296

theorem Top.congr (h : Top ds c) (hesp : c'.esp = c.esp)
    (hm : AgreeOn c.esp.toNat (c.esp.toNat + 4 * ds.length) c.mem c'.mem) : Top ds c' := by
  refine ⟨?_, ?_⟩
  · rw [hesp]
    exact h.stacked.congr hm
  · rw [hesp]
    exact h.fits

theorem Stacked.get {i : Nat} (h : Stacked m a ds) (hi : ds[i]? = some d) :
    dwordAt m (a + 4 * i) = d := by
  induction ds generalizing a i with
  | nil => simp at hi
  | cons d' ds ih =>
    cases i with
    | zero => exact h.1.trans (Option.some.inj hi)
    | succ i =>
      have hd := ih h.2 (i := i) (by simpa using hi)
      rwa [show a + 4 + 4 * i = a + 4 * (i + 1) by omega] at hd

theorem Top.peek (h : Top ds c) (i : Nat) (hi : ds[i]? = some d) : c.peek (4 * i) = d :=
  h.stacked.get hi

theorem Top.esp_add (h : Top ds c) {n : Nat} (hn : n ≤ ds.length) (hv : v.toNat = 4 * n) :
    (c.esp + v).toNat = c.esp.toNat + 4 * n := by
  have hfits := h.fits
  rw [UInt32.toNat_add, hv]
  omega

theorem Top.drop (h : Top ds c) {n : Nat} (hn : n ≤ ds.length) (hv : v.toNat = 4 * n) :
    Top (ds.drop n) (c.drop v) := by
  have hesp : (c.drop v).esp.toNat = c.esp.toNat + 4 * n :=
    (congrArg UInt32.toNat (set_reg_self _ _ _)).trans (h.esp_add hn hv)
  have hfits := h.fits
  have hstacked := h.stacked
  rw [← List.take_append_drop n ds, stacked_append, List.length_take, Nat.min_eq_left hn] at hstacked
  refine ⟨?_, ?_⟩
  · rw [hesp]
    exact hstacked.2
  · rw [hesp, List.length_drop]
    omega

theorem Top.pop (h : Top (d :: ds) c) (hr : r ≠ .esp) : Top ds ((Op.pop r).apply alu c) := by
  have htop : Top ds (c.drop 4) := h.drop (n := 1) (by simp) (by decide)
  have hesp : ((Op.pop r).apply alu c).esp = (c.drop 4).esp := set_reg_ne (Ne.symm hr) _ _
  exact ⟨hesp ▸ htop.stacked, hesp ▸ htop.fits⟩

theorem Top.store (h : Top ds c) (r : Reg)
    (hout : a + 4 ≤ c.esp.toNat ∨ c.esp.toNat + 4 * ds.length ≤ a) :
    Top ds (Op.apply alu (.store r a) c) := by
  have hesp : (Op.apply alu (.store r a) c).esp = c.esp := rfl
  exact h.congr hesp fun y _ _ => (changedIn_storeDword _ _ _ y (by omega)).symm

/-- What `pushal` pushes. Nothing is read back from the place of the stack pointer. -/
def allRegs (esp : UInt32) (c : Cpu) : List UInt32 :=
  [c.reg .edi, c.reg .esi, c.reg .ebp, esp, c.reg .ebx, c.reg .edx, c.reg .ecx, c.reg .eax]

def SameRegs (cpu : Cpu) (c : Core) : Prop := ∀ r, r ≠ .esp → c.cpu.reg r = cpu.reg r

theorem popal_restores {esp : UInt32} (h : Top (allRegs esp cpu ++ ds) c) :
    SameRegs cpu (Op.popal.apply alu c) ∧ Top ds (Op.popal.apply alu c) := by
  have htop : Top ds (c.drop 32) := h.drop (n := 8) (by simp [allRegs]) (by decide)
  refine ⟨fun r hr => ?_, htop.stacked, htop.fits⟩
  cases r with
  | eax => exact h.peek 7 rfl
  | ecx => exact h.peek 6 rfl
  | edx => exact h.peek 5 rfl
  | ebx => exact h.peek 4 rfl
  | esp => exact absurd rfl hr
  | ebp => exact h.peek 2 rfl
  | esi => exact h.peek 1 rfl
  | edi => exact h.peek 0 rfl

/-- `iret` goes back to what the interrupt has interrupted. In the kernel the stack has stayed
the same, and its pointer is where the frame ends. -/
theorem iret_restores (hregs : SameRegs cpu c) (htop : Top (interruptFrame cpu) c)
    (hsame : ¬ cpu.IsUser → (c.esp + 12 = cpu.reg .esp ∧ c.cpu.ss = cpu.ss)) :
    Op.iret.apply alu c = ⟨cpu, c.mem⟩ := by
  have hcpu : ∀ (cpu' : Cpu), (∀ r, cpu'.reg r = cpu.reg r) → cpu'.eflags = cpu.eflags →
      cpu'.eip = cpu.eip → cpu'.cs = cpu.cs → cpu'.ss = cpu.ss → cpu' = cpu := by
    rintro ⟨reg, eflags, eip, cs, ss⟩ hreg rfl rfl rfl rfl
    have hreg' : reg = cpu.reg := funext hreg
    subst hreg'
    rfl
  have hset : ∀ v r, v = cpu.reg .esp → (c.cpu.set .esp v).reg r = cpu.reg r := by
    intro v r hv
    by_cases hr : r = .esp
    · rw [hr, set_reg_self, hv]
    · rw [set_reg_ne hr, hregs r hr]
  by_cases huser : cpu.IsUser
  · rw [interruptFrame, if_pos huser] at htop
    have hcs : c.peek 4 = cpu.cs := htop.peek 1 rfl
    have huser' : Cpu.IsUser { c.cpu with eip := c.peek 0, cs := c.peek 4, eflags := c.peek 8 } := by
      simpa only [Cpu.IsUser, hcs] using huser
    simp only [Op.apply, if_pos huser']
    exact congrArg (fun cpu => Core.mk cpu c.mem) (hcpu _ (fun r => hset _ r (htop.peek 3 rfl))
      (htop.peek 2 rfl) (htop.peek 0 rfl) hcs (htop.peek 4 rfl))
  · obtain ⟨hesp, hss⟩ := hsame huser
    rw [interruptFrame, if_neg huser] at htop
    have hcs : c.peek 4 = cpu.cs := htop.peek 1 rfl
    have huser' : ¬ Cpu.IsUser { c.cpu with eip := c.peek 0, cs := c.peek 4, eflags := c.peek 8 } := by
      simpa only [Cpu.IsUser, hcs] using huser
    simp only [Op.apply, if_neg huser']
    exact congrArg (fun cpu => Core.mk cpu c.mem) (hcpu _ (fun r => hset _ r hesp)
      (htop.peek 2 rfl) (htop.peek 0 rfl) hcs hss)

def savedContext (flags esp : UInt32) (cpu : Cpu) : List UInt32 :=
  flags :: (allRegs esp cpu ++ interruptFrame cpu)

structure Saved (base : UInt32) (cpu : Cpu) (m : Memory UInt8) (c : Core) : Prop where
  stacked : ∃ flags esp, Stacked c.mem c.esp.toNat (savedContext flags esp cpu)
  esp : c.esp.toNat + 4 * (savedContext 0 0 cpu).length = base.toNat
  regs : SameRegs cpu c
  changed : ChangedIn c.esp.toNat (4 * (savedContext 0 0 cpu).length) m c.mem

theorem savedContext_length (flags esp : UInt32) (cpu : Cpu) :
    (savedContext flags esp cpu).length = 9 + (interruptFrame cpu).length := by
  simp only [savedContext, allRegs, List.length_cons, List.length_append, List.length_nil]
  omega

theorem Entered.setFlags {g : Gate} {esp0 : UInt32} (h : Entered g esp0 c e) (v : UInt32) :
    Entered g esp0 c (e.setFlags v) :=
  ⟨h.esp, h.regs, h.eip, h.cs, h.ss, h.stacked, h.changed⟩

theorem saved_entered {g : Gate} {esp0 : UInt32} (he : Entered g esp0 c e)
    (hroom : 4 * (savedContext 0 0 c.cpu).length ≤ (interruptBase esp0 c.cpu).toNat) :
    Saved (interruptBase esp0 c.cpu) c.cpu c.mem (runOps alu [.pushal, .pushfl] e) ∧
      (runOps alu [.pushal, .pushfl] e).cpu.ss = if c.cpu.IsUser then g.ss else c.cpu.ss := by
  rw [savedContext_length] at hroom
  have hesp := he.esp
  have hregs : Pushed [e.cpu.reg .edi, e.cpu.reg .esi, e.cpu.reg .ebp, e.cpu.reg .esp,
      e.cpu.reg .ebx, e.cpu.reg .edx, e.cpu.reg .ecx, e.cpu.reg .eax] e (Op.pushal.apply alu e) :=
    pushed_pushes _ (by simp only [List.length_cons, List.length_nil]; omega)
  have hespregs := hregs.esp
  simp only [List.length_cons, List.length_nil] at hespregs
  have hflags := pushed_push (c := Op.pushal.apply alu e) (Op.pushal.apply alu e).cpu.eflags
    (by omega)
  have hp := hregs.trans hflags
  have hrun : (Op.pushal.apply alu e).push (Op.pushal.apply alu e).cpu.eflags =
      runOps alu [.pushal, .pushfl] e := rfl
  rw [hrun] at hp
  have hespp := hp.esp
  have hsame : ∀ r, r ≠ .esp → e.cpu.reg r = c.cpu.reg r := he.regs
  have hlist : [(Op.pushal.apply alu e).cpu.eflags] ++ [e.cpu.reg .edi, e.cpu.reg .esi,
      e.cpu.reg .ebp, e.cpu.reg .esp, e.cpu.reg .ebx, e.cpu.reg .edx, e.cpu.reg .ecx,
      e.cpu.reg .eax] = (Op.pushal.apply alu e).cpu.eflags :: allRegs (e.cpu.reg .esp) c.cpu := by
    simp only [allRegs, List.singleton_append, hsame _ (show Reg.edi ≠ .esp by decide),
      hsame _ (show Reg.esi ≠ .esp by decide), hsame _ (show Reg.ebp ≠ .esp by decide),
      hsame _ (show Reg.ebx ≠ .esp by decide), hsame _ (show Reg.edx ≠ .esp by decide),
      hsame _ (show Reg.ecx ≠ .esp by decide), hsame _ (show Reg.eax ≠ .esp by decide)]
  rw [hlist] at hp hespp
  simp only [allRegs, List.length_cons, List.length_nil] at hespp
  refine ⟨⟨⟨_, _, stacked_append.mpr ⟨hp.stacked, ?_⟩⟩, ?_, fun r hr => ?_, ?_⟩, ?_⟩
  · simp only [allRegs, List.length_cons, List.length_nil]
    rw [hespp]
    exact he.stacked.congr fun x hlo hhi => (hp.changed x (by
      simp only [allRegs, List.length_cons, List.length_nil]
      omega)).symm
  · rw [savedContext_length]
    omega
  · rw [hp.cpu, set_reg_ne hr, hsame r hr]
  · rw [savedContext_length]
    exact (he.changed.widen (by omega) (by omega)).trans (hp.changed.widen (by omega) (by
      simp only [allRegs, List.length_cons, List.length_nil]
      omega))
  · rw [hp.cpu]
    exact he.ss

theorem popped_mem (c : Core) : (runOps alu [.popfl, .popal] c).mem = c.mem := rfl

theorem popped_esp (c : Core) : (runOps alu [.popfl, .popal] c).esp = c.esp + 4 + 32 := by
  have hpopfl : (Op.popfl.apply alu c).esp = c.esp + 4 := set_reg_self c.cpu .esp _
  have hpopal : ∀ c : Core, (Op.popal.apply alu c).esp = c.esp + 32 := by
    intro c
    simp only [Core.esp, Op.apply, Core.set, set_reg_ne (show Reg.esp ≠ .eax by decide),
      set_reg_ne (show Reg.esp ≠ .ecx by decide), set_reg_ne (show Reg.esp ≠ .edx by decide),
      set_reg_ne (show Reg.esp ≠ .ebx by decide), set_reg_ne (show Reg.esp ≠ .ebp by decide),
      set_reg_ne (show Reg.esp ≠ .esi by decide), set_reg_ne (show Reg.esp ≠ .edi by decide),
      Core.drop, set_reg_self]
  rw [← hpopfl]
  exact hpopal _

theorem popped_context {flags esp : UInt32} (h : Top (savedContext flags esp cpu) c) :
    SameRegs cpu (runOps alu [.popfl, .popal] c) ∧
      Top (interruptFrame cpu) (runOps alu [.popfl, .popal] c) := by
  have htop : Top (allRegs esp cpu ++ interruptFrame cpu) (c.drop 4) :=
    h.drop (n := 1) (by simp [savedContext]) (by decide)
  have htop' : Top (allRegs esp cpu ++ interruptFrame cpu) (Op.popfl.apply alu c) :=
    ⟨htop.stacked, htop.fits⟩
  exact popal_restores alu htop'

theorem iret_value (huser : cpu.IsUser) (hregs : SameRegs cpu c) (htop : Top (interruptFrame cpu) c)
    (v flags : UInt32) :
    Op.iret.apply alu ((c.set .eax v).setFlags flags) = ⟨cpu.set .eax v, c.mem⟩ := by
  have hesp : ((c.set .eax v).setFlags flags).esp = c.esp :=
    set_reg_ne (show Reg.esp ≠ .eax by decide) c.cpu v
  refine iret_restores alu (fun r hr => ?_) ?_ fun hkernel => absurd huser hkernel
  · change (c.cpu.set .eax v).reg r = _
    by_cases heax : r = .eax
    · rw [heax, set_reg_self, set_reg_self]
    · rw [set_reg_ne heax, set_reg_ne heax, hregs r hr]
  · rw [interruptFrame_set (by decide)]
    exact ⟨hesp ▸ htop.stacked, hesp ▸ htop.fits⟩

/-- The first instructions of a C function and its last ones. -/
def enterFunction : List Op := [.push .ebp, .move .esp .ebp]

def leaveFunction : List Op := [.leave, .ret]

theorem leaveFunction_returns {ebp ret : UInt32}
    (hstack : Stacked c.mem (c.cpu.reg .ebp).toNat (ebp :: ret :: ds))
    (hfits : (c.cpu.reg .ebp).toNat + 8 + 4 * ds.length < 4294967296) :
    (runOps alu leaveFunction c).cpu.eip = ret ∧ Top ds (runOps alu leaveFunction c) ∧
      (runOps alu leaveFunction c).esp.toNat = (c.cpu.reg .ebp).toNat + 8 ∧
      (runOps alu leaveFunction c).mem = c.mem ∧
      (runOps alu leaveFunction c).cpu.ss = c.cpu.ss ∧
      (runOps alu leaveFunction c).cpu.reg .eax = c.cpu.reg .eax := by
  generalize hb : c.set .esp (c.cpu.reg .ebp) = b
  have hbesp : b.esp = c.cpu.reg .ebp := hb ▸ set_reg_self c.cpu .esp _
  have hbmem : b.mem = c.mem := hb ▸ rfl
  have hbss : b.cpu.ss = c.cpu.ss := hb ▸ set_ss c.cpu .esp _
  have hbeax : b.cpu.reg .eax = c.cpu.reg .eax := hb ▸ set_reg_ne (by decide) c.cpu _
  have htop : Top (ebp :: ret :: ds) b := by
    refine ⟨?_, ?_⟩
    · rw [hbesp, hbmem]
      exact hstack
    · rw [hbesp, List.length_cons, List.length_cons]
      omega
  have hpop := htop.pop alu (r := .ebp) (by decide)
  have hleave : Op.leave.apply alu c = (Op.pop .ebp).apply alu b := hb ▸ rfl
  have hesp : ((Op.pop .ebp).apply alu b).esp = (b.drop 4).esp :=
    set_reg_ne (by decide) (b.drop 4).cpu _
  have hdrop := hpop.drop (n := 1) (v := 4) (by simp) (by decide)
  have hadd := hpop.esp_add (n := 1) (v := 4) (by simp) (by decide)
  have hadd' := htop.esp_add (n := 1) (v := 4) (by simp) (by decide)
  have hret := hpop.peek 0 rfl
  have hrun : runOps alu leaveFunction c = Op.ret.apply alu (Op.leave.apply alu c) := rfl
  rw [hrun, hleave]
  generalize hq : (Op.pop .ebp).apply alu b = q at *
  have hqmem : q.mem = b.mem := hq ▸ rfl
  have hqss : q.cpu.ss = b.cpu.ss := hq ▸ set_ss (b.drop 4).cpu .ebp _
  have hqeax : q.cpu.reg .eax = b.cpu.reg .eax := by
    rw [← hq]
    exact (set_reg_ne (by decide) (b.drop 4).cpu _).trans (set_reg_ne (by decide) b.cpu _)
  have hdrop4 : (b.drop 4).esp = b.esp + 4 := set_reg_self b.cpu .esp _
  have hret4 : (Op.ret.apply alu q).esp = q.esp + 4 := set_reg_self q.cpu .esp _
  refine ⟨hret, ⟨hdrop.stacked, hdrop.fits⟩, ?_, ?_, ?_, ?_⟩
  · rw [hret4, hadd, hesp, hdrop4, hadd', hbesp]
  · exact hqmem.trans hbmem
  · exact (set_ss q.cpu .esp (q.esp + 4)).trans (hqss.trans hbss)
  · exact (set_reg_ne (show Reg.eax ≠ .esp by decide) q.cpu (q.esp + 4)).trans (hqeax.trans hbeax)

def dwords (m : Memory UInt8) : Nat → Nat → List UInt32
  | 0, _ => []
  | n + 1, a => dwordAt m a :: dwords m n (a + 4)

theorem dwords_length (m : Memory UInt8) (n a : Nat) : (dwords m n a).length = n := by
  induction n generalizing a with
  | zero => rfl
  | succ n ih => rw [dwords, List.length_cons, ih]

theorem stacked_dwords (m : Memory UInt8) (n a : Nat) : Stacked m a (dwords m n a) := by
  induction n generalizing a with
  | zero => trivial
  | succ n ih => exact ⟨rfl, ih (a + 4)⟩

/-- The activation of a C function waits at `ebp`. Its wrapper has saved the context of `cpu`
below `base` and passed `n` words, and goes on at `after`. -/
structure Frame (after : UInt32) (n : Nat) (cpu : Cpu) (base ebp : Nat) (m : Memory UInt8) :
    Prop where
  ret : dwordAt m (ebp + 4) = after
  context : ∃ flags esp, Stacked m (ebp + 8 + 4 * n) (savedContext flags esp cpu)
  base : ebp + 8 + 4 * n + 4 * (savedContext 0 0 cpu).length = base

variable {after : UInt32} {n base ebp : Nat}

theorem Frame.congr (h : Frame after n cpu base ebp m) (hret : AgreeOn (ebp + 4) (ebp + 8) m m')
    (hown : AgreeOn (ebp + 8 + 4 * n) base m m') : Frame after n cpu base ebp m' := by
  obtain ⟨flags, esp, hctx⟩ := h.context
  have hbase := h.base
  refine ⟨?_, ⟨flags, esp, hctx.congr fun x hlo hhi => hown x hlo ?_⟩, h.base⟩
  · rw [← h.ret]
    exact (dwordAt_congr hret).symm
  · rw [savedContext_length] at hbase hhi
    omega

theorem Frame.leave (h : Frame after n cpu base (c.cpu.reg .ebp).toNat c.mem)
    (hbase : base < 4294967296) :
    (runOps alu leaveFunction c).cpu.eip = after ∧
      (∃ words flags esp, words.length = n ∧
        Top (words ++ savedContext flags esp cpu) (runOps alu leaveFunction c)) ∧
      (runOps alu leaveFunction c).esp.toNat = (c.cpu.reg .ebp).toNat + 8 ∧
      (runOps alu leaveFunction c).mem = c.mem ∧
      (runOps alu leaveFunction c).cpu.ss = c.cpu.ss ∧
      (runOps alu leaveFunction c).cpu.reg .eax = c.cpu.reg .eax := by
  obtain ⟨flags, esp, hctx⟩ := h.context
  have heq := h.base
  have hlen : (dwords c.mem n ((c.cpu.reg .ebp).toNat + 8)).length = n := dwords_length _ _ _
  have hstack : Stacked c.mem (c.cpu.reg .ebp).toNat (dwordAt c.mem (c.cpu.reg .ebp).toNat :: after ::
      (dwords c.mem n ((c.cpu.reg .ebp).toNat + 8) ++ savedContext flags esp cpu)) := by
    refine ⟨rfl, h.ret, stacked_append.mpr ⟨stacked_dwords _ _ _, ?_⟩⟩
    rw [hlen]
    exact hctx
  obtain ⟨heip, htop, hrest⟩ := leaveFunction_returns alu hstack (by
    rw [savedContext_length] at heq
    rw [List.length_append, hlen, savedContext_length]
    omega)
  exact ⟨heip, ⟨_, flags, esp, hlen, htop⟩, hrest⟩

end RedstoneOS.Library.Processor
