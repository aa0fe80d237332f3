import RedstoneOS.I8259
import RedstoneOS.Library.Runs

namespace RedstoneOS.IrqLines

open I8259 Library.Runs

def icw4 : UInt8 := 0x01
def icw3Slave : UInt8 := 0x02
def initialMasterMask : UInt8 := 0xFF

def outMaster (value : UInt8) (p : Pics) : Pics := { p with masterPort := value }

def outSlave (value : UInt8) (p : Pics) : Pics := { p with slavePort := value }

/-- What `i8259_init` sends to the data ports. The first command words go to other ports. -/
def i8259Init (p : Pics) : Pics :=
  let p := { p with masterMask := initialMasterMask, slaveMask := initialSlaveMask }
  let p := outSlave pic2.toUInt8 (outMaster pic1.toUInt8 p)
  let p := outSlave icw3Slave (outMaster ((1 : UInt8) <<< icw3Slave) p)
  let p := outSlave icw4 (outMaster icw4 p)
  outSlave p.slaveMask (outMaster p.masterMask p)

inductive Call
  | enableIrq (irqNum : UInt32)
  | disableIrq (irqNum : UInt32)
  deriving DecidableEq

def Call.irqNum : Call → UInt32
  | .enableIrq n => n
  | .disableIrq n => n

def step (p : Pics) : Call → Pics
  | .enableIrq n => enableIrq n p
  | .disableIrq n => disableIrq n p

/-- A line of the slave comes through the cascade line of the master. -/
def Deliverable (p : Pics) (n : UInt32) : Prop :=
  if n.toNat < 8 then ¬ Masked p.masterPort n.toNat
  else ¬ Masked p.slavePort (n.toNat - 8) ∧ ¬ Masked p.masterPort 2

def LastEnabled (cs : List Call) (n : UInt32) : Prop :=
  (cs.filter fun c => c.irqNum = n).getLast? = some (.enableIrq n)

def DeviceLine (n : UInt32) : Prop := n.toNat < 16 ∧ n.toNat ≠ 2

instance (n : UInt32) : Decidable (DeviceLine n) := inferInstanceAs (Decidable (_ ∧ _))

structure LinesRight (cs : List Call) (p : Pics) : Prop where
  deliverable : ∀ n, DeviceLine n → (Deliverable p n ↔ LastEnabled cs n)
  master : p.masterPort = p.masterMask
  slave : p.slavePort = p.slaveMask

/-- The masks follow the calls. An open line of the slave keeps the cascade open. -/
structure Tracks (cs : List Call) (p : Pics) : Prop where
  masterLines : ∀ n : UInt32, n.toNat < 8 → n.toNat ≠ 2 →
    (¬ Masked p.masterMask n.toNat ↔ LastEnabled cs n)
  slaveLines : ∀ n : UInt32, 8 ≤ n.toNat → n.toNat < 16 →
    (¬ Masked p.slaveMask (n.toNat - 8) ↔ LastEnabled cs n)
  cascade : ∀ i, i < 8 → ¬ Masked p.slaveMask i → ¬ Masked p.masterMask 2
  masterPort : p.masterPort = p.masterMask
  slavePort : p.slavePort = p.slaveMask

variable {cs : List Call} {c : Call} {p : Pics} {n m : UInt32} {i : Nat}

theorem lastEnabled_nil : ¬ LastEnabled [] n := by simp [LastEnabled]

theorem lastEnabled_named (h : c.irqNum = n) : LastEnabled (cs ++ [c]) n ↔ c = .enableIrq n := by
  rw [LastEnabled, List.filter_append, List.filter_singleton]
  simp [h]

theorem lastEnabled_other (h : c.irqNum ≠ n) : LastEnabled (cs ++ [c]) n ↔ LastEnabled cs n := by
  rw [LastEnabled, List.filter_append, List.filter_singleton]
  simp [h, LastEnabled]

theorem masked_initial (hi : i < 8) : Masked 0xFF i := by
  have hbits : ∀ i, i < 8 → (0xFF : UInt8).toNat.testBit i = true := by decide
  exact hbits i hi

theorem line_lt (hn : n.toNat < 16) : n + pic1 < pic2 ↔ n.toNat < 8 := by
  rw [UInt32.lt_iff_toNat_lt, UInt32.toNat_add]
  simp only [pic1, pic2, UInt32.reduceToNat]
  omega

theorem line_slave (hn : n.toNat < 16) (h8 : 8 ≤ n.toNat) :
    (n + pic1 - pic2).toNat = n.toNat - 8 := by
  rw [UInt32.toNat_sub, UInt32.toNat_add]
  simp only [pic1, pic2, UInt32.reduceToNat]
  omega

theorem enableIrq_master (hn : n.toNat < 8) :
    enableIrq n p = sendMaster (clearMask n p.masterMask) p := by
  have hlt : n + pic1 < pic2 := (line_lt (by omega)).mpr hn
  simp only [enableIrq, if_pos hlt, UInt32.add_sub_cancel]

theorem enableIrq_slave (hn : n.toNat < 16) (h8 : 8 ≤ n.toNat) :
    enableIrq n p = sendSlave (clearMask (n + pic1 - pic2) p.slaveMask)
      (sendMaster (clearMask 2 p.masterMask) p) := by
  have hlt : ¬ n + pic1 < pic2 := fun h => Nat.not_lt.mpr h8 ((line_lt hn).mp h)
  simp only [enableIrq, if_neg hlt]
  rfl

theorem disableIrq_master (hn : n.toNat < 8) :
    disableIrq n p = sendMaster (setMask n p.masterMask) p := by
  have hlt : n + pic1 < pic2 := (line_lt (by omega)).mpr hn
  simp only [disableIrq, if_pos hlt, UInt32.add_sub_cancel]

theorem disableIrq_slave (hn : n.toNat < 16) (h8 : 8 ≤ n.toNat) :
    disableIrq n p = sendSlave (setMask (n + pic1 - pic2) p.slaveMask)
      (if p.slaveMask = initialSlaveMask then sendMaster (setMask 2 p.masterMask) p else p) := by
  have hlt : ¬ n + pic1 < pic2 := fun h => Nat.not_lt.mpr h8 ((line_lt hn).mp h)
  simp only [disableIrq, if_neg hlt]
  split <;> rfl

theorem line_inj (h : n.toNat = m.toNat) : n = m := UInt32.toNat_inj.mp h

theorem tracks_master (h : Tracks cs p) {mask : UInt8} (hc : c.irqNum = n) (hn : n.toNat < 8)
    (hn2 : n.toNat ≠ 2)
    (hown : ¬ Masked mask n.toNat ↔ c = .enableIrq n)
    (hother : ∀ i, i < 8 → i ≠ n.toNat → (Masked mask i ↔ Masked p.masterMask i)) :
    Tracks (cs ++ [c]) (sendMaster mask p) := by
  refine ⟨fun m hm hm2 => ?_, fun m h8 hm => ?_, fun i hi hopen => ?_, rfl, h.slavePort⟩
  · by_cases hmn : m = n
    · subst hmn
      rw [lastEnabled_named hc]
      exact hown
    · have hne : m.toNat ≠ n.toNat := fun he => hmn (line_inj he)
      rw [lastEnabled_other (by rw [hc]; exact Ne.symm hmn), ← h.masterLines m hm hm2]
      exact (hother _ hm hne).not
  · have hne : c.irqNum ≠ m := by
      rw [hc]
      rintro rfl
      omega
    rw [lastEnabled_other hne]
    exact h.slaveLines m h8 hm
  · exact fun hmasked => h.cascade i hi hopen ((hother 2 (by decide) (Ne.symm hn2)).mp hmasked)

theorem tracks_slave (h : Tracks cs p) {mask : UInt8} {p' : Pics} (hc : c.irqNum = n)
    (h8 : 8 ≤ n.toNat) (hn : n.toNat < 16)
    (hown : ¬ Masked mask (n.toNat - 8) ↔ c = .enableIrq n)
    (hother : ∀ i, i < 8 → i ≠ n.toNat - 8 → (Masked mask i ↔ Masked p.slaveMask i))
    (hmaster : ∀ i, i < 8 → i ≠ 2 → (Masked p'.masterMask i ↔ Masked p.masterMask i))
    (hport : p'.masterPort = p'.masterMask)
    (hcascade : ∀ i, i < 8 → ¬ Masked mask i → ¬ Masked p'.masterMask 2) :
    Tracks (cs ++ [c]) (sendSlave mask p') := by
  refine ⟨fun m hm hm2 => ?_, fun m hm8 hm => ?_, hcascade, hport, rfl⟩
  · have hne : c.irqNum ≠ m := by
      rw [hc]
      rintro rfl
      omega
    rw [lastEnabled_other hne, ← h.masterLines m hm hm2]
    exact (hmaster _ hm hm2).not
  · by_cases hmn : m = n
    · subst hmn
      rw [lastEnabled_named hc]
      exact hown
    · have hne : m.toNat - 8 ≠ n.toNat - 8 := fun he => hmn (line_inj (by omega))
      rw [lastEnabled_other (by rw [hc]; exact Ne.symm hmn), ← h.slaveLines m hm8 hm]
      exact (hother _ (by omega) hne).not

theorem tracks_enable (h : Tracks cs p) (hn : DeviceLine n) :
    Tracks (cs ++ [.enableIrq n]) (enableIrq n p) := by
  obtain ⟨hn, hn2⟩ := hn
  have hc : (Call.enableIrq n).irqNum = n := rfl
  by_cases h8 : n.toNat < 8
  · have hmod : n.toNat % 32 = n.toNat := by omega
    rw [enableIrq_master h8]
    refine tracks_master h hc h8 hn2 ?_ fun i hi hne => ?_
    · rw [masked_clear h8, hmod]
      simp
    · rw [masked_clear hi, hmod]
      exact and_iff_left hne
  · have h8 := Nat.not_lt.mp h8
    have hmod : (n + pic1 - pic2).toNat % 32 = n.toNat - 8 := by
      rw [line_slave hn h8]
      omega
    rw [enableIrq_slave hn h8]
    refine tracks_slave h hc h8 hn ?_ (fun i hi hne => ?_) (fun i hi hne => ?_) rfl fun i hi _ => ?_
    · rw [masked_clear (by omega), hmod]
      simp
    · rw [masked_clear hi, hmod]
      exact and_iff_left hne
    · exact (masked_clear hi).trans (and_iff_left hne)
    · exact fun hmasked => ((masked_clear (by decide)).mp hmasked).2 rfl

theorem tracks_disable (h : Tracks cs p) (hn : DeviceLine n) :
    Tracks (cs ++ [.disableIrq n]) (disableIrq n p) := by
  obtain ⟨hn, hn2⟩ := hn
  have hc : (Call.disableIrq n).irqNum = n := rfl
  by_cases h8 : n.toNat < 8
  · have hmod : n.toNat % 32 = n.toNat := by omega
    rw [disableIrq_master h8]
    refine tracks_master h hc h8 hn2 ?_ fun i hi hne => ?_
    · rw [masked_set h8, hmod]
      simp
    · rw [masked_set hi, hmod]
      exact or_iff_left hne
  · have h8 := Nat.not_lt.mp h8
    have hmod : (n + pic1 - pic2).toNat % 32 = n.toNat - 8 := by
      rw [line_slave hn h8]
      omega
    rw [disableIrq_slave hn h8]
    refine tracks_slave h hc h8 hn ?_ (fun i hi hne => ?_) (fun i hi hne => ?_) ?_ fun i hi hopen => ?_
    · rw [masked_set (by omega), hmod]
      simp
    · rw [masked_set hi, hmod]
      exact or_iff_left hne
    · split
      · exact (masked_set hi).trans (or_iff_left hne)
      · exact Iff.rfl
    · split
      · rfl
      · exact h.masterPort
    · have hbefore : ¬ Masked p.slaveMask i := fun hmasked => hopen ((masked_set hi).mpr (Or.inl hmasked))
      have hfull : p.slaveMask ≠ initialSlaveMask := by
        intro hfull
        rw [hfull] at hbefore
        exact hbefore (masked_initial hi)
      rw [if_neg hfull]
      exact h.cascade i hi hbefore

theorem tracks_init (p : Pics) : Tracks [] (i8259Init p) := by
  refine ⟨fun n hn _ => ?_, fun n _ hn => ?_, fun i hi hopen => absurd (masked_initial hi) hopen, rfl, rfl⟩
  · exact iff_of_false (not_not.mpr (masked_initial hn)) lastEnabled_nil
  · exact iff_of_false (not_not.mpr (masked_initial (by omega))) lastEnabled_nil

theorem tracks_run (p : Pics) (hcs : ∀ c, c ∈ cs → DeviceLine c.irqNum) :
    Tracks cs (run step (i8259Init p) cs) := by
  induction cs using List.reverseRecOn with
  | nil => exact tracks_init p
  | append_singleton cs c ih =>
    have hbefore := ih fun d hd => hcs d (List.mem_append_left _ hd)
    have hline := hcs c (List.mem_append_right _ List.mem_cons_self)
    rw [run_concat]
    cases c with
    | enableIrq n => exact tracks_enable hbefore hline
    | disableIrq n => exact tracks_disable hbefore hline

/-- A line gets through exactly if the last call for it has enabled it, in any order of calls for
any lines, and the ports have the masks that are kept. -/
theorem lines_right (p : Pics) {cs : List Call} (hcs : ∀ c, c ∈ cs → DeviceLine c.irqNum) :
    LinesRight cs (run step (i8259Init p) cs) := by
  have h := tracks_run p hcs
  refine ⟨fun n hn => ?_, h.masterPort, h.slavePort⟩
  rw [Deliverable, h.masterPort, h.slavePort]
  split
  next h8 => exact h.masterLines n h8 hn.2
  next h8 =>
    rw [← h.slaveLines n (Nat.not_lt.mp h8) hn.1]
    exact and_iff_left_of_imp fun hopen => h.cascade _ (by have := hn.1; omega) hopen

def sharedCascade : List Call := [.enableIrq 8, .enableIrq 12, .disableIrq 12, .disableIrq 1]

theorem lines_right_shared :
    (∀ c, c ∈ sharedCascade → DeviceLine c.irqNum) ∧
      LinesRight sharedCascade (run step (i8259Init ⟨0, 0, 0, 0⟩) sharedCascade) := by
  have hcs : ∀ c, c ∈ sharedCascade → DeviceLine c.irqNum := by
    simp [sharedCascade, Call.irqNum, DeviceLine]
  exact ⟨hcs, lines_right ⟨0, 0, 0, 0⟩ hcs⟩

end RedstoneOS.IrqLines
