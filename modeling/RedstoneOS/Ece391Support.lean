import RedstoneOS.Itoa

namespace RedstoneOS.Ece391Support

open Lib Library.ByteMemory Library.Numerals Itoa

variable {value radix : UInt32} {buf : Nat} {b b' : Buf}

def ece391Strlen (m : Mem) (s : Nat) : Nat := strlenFrom m s addressSpace 0

/-- Beside `strrev`, it returns before the loop where there is nothing to swap. -/
def ece391Strrev (s : Nat) (b : Buf) : Buf :=
  let fin : Int := (ece391Strlen b.mem s : Int) - 1
  if fin ≤ 0 then b else strrevLoop s (ece391Strlen b.mem s) 0 fin b

def ece391Itoa (value : UInt32) (buf : Nat) (radix : UInt32) (b : Buf) : Option Buf :=
  if value = 0 then some ((b.store buf 48).store (buf + 1) 0)
  else do
    let (newbuf, b) ← digitLoop radix digitBound value buf b
    some (ece391Strrev buf (b.store newbuf 0))

theorem ece391Strrev_eq (s : Nat) (b : Buf) : ece391Strrev s b = strrev s b := by
  rw [ece391Strrev, strrev]
  split
  · next h =>
    have hdone : strlen b.mem s ≤ 0 + 1 := by
      have heq : ece391Strlen b.mem s = strlen b.mem s := rfl
      omega
    exact (strrevLoop_done s _ b hdone).symm
  · rfl

theorem ece391Itoa_eq (value : UInt32) (buf : Nat) (radix : UInt32) (b : Buf) :
    ece391Itoa value buf radix b = itoa value buf radix b := by
  simp only [ece391Itoa, itoa, ece391Strrev_eq]

structure LeavesNumeral (value radix : UInt32) (buf : Nat) (b b' : Buf) : Prop where
  numeral : IsNumeral digitChar digitValue radix.toNat value.toNat (textAt b'.mem buf)
  nul : b'.mem (buf + (textAt b'.mem buf).length) = 0
  stores : StoresIn buf (buf + 33) b b'
  frame : ∀ a, a < buf ∨ buf + 33 ≤ a → b'.mem a = b.mem a

theorem itoa_leaves (hr : 1 < radix.toNat) (hmax : radix.toNat ≤ 36) (value : UInt32) (buf : Nat)
    (b : Buf) : ∃ b', itoa value buf radix b = some b' ∧ LeavesNumeral value radix buf b b' := by
  obtain ⟨b', hitoa, hmem, hstores⟩ := itoa_eq hr hmax value buf b
  have hle := valueText_length_le hr value
  have h0 := zero_not_mem_valueText hr hmax value.toNat
  generalize htext : valueText radix.toNat value.toNat = text at hmem hstores hle h0
  have hread : textAt b'.mem buf = text := by
    rw [hmem]
    exact textAt_place _ buf h0 (Function.update_self _ _ _) (by simp only [addressSpace]; omega)
  refine ⟨b', hitoa, ?_, ?_, hstores.mono le_rfl (by omega), fun a ha => ?_⟩
  · rw [hread, ← htext]
    exact isNumeral_valueText hr hmax value.toNat
  · rw [hread, hmem, place_outside _ _ (by omega), Function.update_self]
  · rw [hmem, place_outside _ _ (by omega), Function.update_of_ne (by omega)]

/-- Both conversions end and leave the numeral. The loop that reverses the digits ends by
itself, so that more rounds than the string has bytes would leave the same. -/
theorem itoa_numeral (value radix : UInt32) (hr : 2 ≤ radix) (hmax : radix ≤ 36) (buf : Nat)
    (b : Buf) :
    (∃ b', itoa value buf radix b = some b' ∧ LeavesNumeral value radix buf b b') ∧
    (∃ b', ece391Itoa value buf radix b = some b' ∧ LeavesNumeral value radix buf b b') ∧
    ∀ (s k : Nat) (b : Buf),
      strrevLoop s (strlen b.mem s + k) 0 ((strlen b.mem s : Int) - 1) b = strrev s b := by
  have hr' : 1 < radix.toNat := UInt32.le_iff_toNat_le.mp hr
  have hmax' : radix.toNat ≤ 36 := UInt32.le_iff_toNat_le.mp hmax
  refine ⟨itoa_leaves hr' hmax' value buf b, ?_, fun s k b => ?_⟩
  · rw [ece391Itoa_eq]
    exact itoa_leaves hr' hmax' value buf b
  · rw [strrev, show (0 : Int) = ((0 : Nat) : Int) from rfl]
    exact strrevLoop_fuel s k b (by omega)

theorem itoa_numeral_hex :
    (∃ b', itoa 0x1F0 64 16 ⟨fun _ => 7, []⟩ = some b' ∧
      LeavesNumeral 0x1F0 16 64 ⟨fun _ => 7, []⟩ b') ∧
    (∃ b', ece391Itoa 0x1F0 64 16 ⟨fun _ => 7, []⟩ = some b' ∧
      LeavesNumeral 0x1F0 16 64 ⟨fun _ => 7, []⟩ b') ∧
    ∀ (s k : Nat) (b : Buf),
      strrevLoop s (strlen b.mem s + k) 0 ((strlen b.mem s : Int) - 1) b = strrev s b :=
  itoa_numeral 0x1F0 16 (by decide) (by decide) 64 ⟨fun _ => 7, []⟩

end RedstoneOS.Ece391Support
