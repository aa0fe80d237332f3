import Mathlib.Data.Nat.Bitwise

namespace RedstoneOS.I8259

def pic1 : UInt32 := 0x20
def pic2 : UInt32 := 0x28
def initialSlaveMask : UInt8 := 0xFF

/-- The masks that are kept, and what was last sent to the data ports of the two PICs. -/
@[ext] structure Pics where
  masterMask : UInt8
  slaveMask : UInt8
  masterPort : UInt8
  slavePort : UInt8
  deriving DecidableEq

/-- `(~(bit_mask << n)) & mask`. The processor takes the shift count modulo 32. -/
def clearMask (n : UInt32) (mask : UInt8) : UInt8 := (~~~((1 : UInt32) <<< n) &&& mask.toUInt32).toUInt8

def setMask (n : UInt32) (mask : UInt8) : UInt8 := (((1 : UInt32) <<< n) ||| mask.toUInt32).toUInt8

def sendMaster (outValue : UInt8) (p : Pics) : Pics :=
  { p with masterMask := outValue, masterPort := outValue }

def sendSlave (outValue : UInt8) (p : Pics) : Pics :=
  { p with slaveMask := outValue, slavePort := outValue }

def enableIrq (irqNum : UInt32) (p : Pics) : Pics :=
  let irqNum := irqNum + pic1
  if irqNum < pic2 then sendMaster (clearMask (irqNum - pic1) p.masterMask) p
  else
    let p := sendMaster (clearMask 2 p.masterMask) p
    sendSlave (clearMask (irqNum - pic2) p.slaveMask) p

def disableIrq (irqNum : UInt32) (p : Pics) : Pics :=
  let irqNum := irqNum + pic1
  if irqNum < pic2 then sendMaster (setMask (irqNum - pic1) p.masterMask) p
  else
    let p := if p.slaveMask = initialSlaveMask then sendMaster (setMask 2 p.masterMask) p else p
    sendSlave (setMask (irqNum - pic2) p.slaveMask) p

def Masked (port : UInt8) (line : Nat) : Prop := port.toNat.testBit line = true

variable {n : UInt32} {mask : UInt8} {i : Nat}

theorem testBit_shift (n : UInt32) (i : Nat) :
    ((1 : UInt32) <<< n).toNat.testBit i = decide (i = n.toNat % 32) := by
  have hpow : (1 <<< (n.toNat % 32)) % 2 ^ 32 = 2 ^ (n.toNat % 32) := by
    rw [Nat.one_shiftLeft]
    exact Nat.mod_eq_of_lt (Nat.pow_lt_pow_right (by omega) (Nat.mod_lt _ (by decide)))
  rw [UInt32.toNat_shiftLeft, UInt32.toNat_one, hpow, Nat.testBit_two_pow]
  exact decide_eq_decide.mpr eq_comm

theorem testBit_not (x : UInt32) (hi : i < 32) : (~~~x).toNat.testBit i = !x.toNat.testBit i := by
  have hnot : (~~~x).toNat = 2 ^ 32 - (x.toNat + 1) := by
    rw [UInt32.toNat_not, UInt32.size]
    omega
  rw [hnot, Nat.testBit_two_pow_sub_succ x.toNat_lt, decide_eq_true hi, Bool.true_and]

theorem masked_clear (hi : i < 8) :
    Masked (clearMask n mask) i ↔ Masked mask i ∧ i ≠ n.toNat % 32 := by
  rw [Masked, clearMask, UInt32.toNat_toUInt8, Nat.testBit_mod_two_pow, decide_eq_true hi,
    Bool.true_and, UInt32.toNat_and, Nat.testBit_and, testBit_not _ (by omega), testBit_shift,
    UInt8.toNat_toUInt32, Bool.and_eq_true, and_comm, Masked, Bool.not_eq_true', decide_eq_false_iff_not]

theorem masked_set (hi : i < 8) :
    Masked (setMask n mask) i ↔ Masked mask i ∨ i = n.toNat % 32 := by
  rw [Masked, setMask, UInt32.toNat_toUInt8, Nat.testBit_mod_two_pow, decide_eq_true hi,
    Bool.true_and, UInt32.toNat_or, Nat.testBit_or, testBit_shift, UInt8.toNat_toUInt32,
    Bool.or_eq_true, or_comm, Masked, decide_eq_true_iff]

end RedstoneOS.I8259
