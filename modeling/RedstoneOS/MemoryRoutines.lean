import RedstoneOS.ReadData
import RedstoneOS.Library.Runs

namespace RedstoneOS.MemoryRoutines

open Filesystem (wrap)
open ReadData (wrap_of_lt)
open Lib (Mem)
open Library.ByteMemory Library.Runs

structure Cpu where
  df : Bool
  mem : Mem

def byteOf (eax : UInt32) (k : Nat) : UInt8 := UInt8.ofNat (eax.toNat >>> (8 * k))

def storeBytes (a : Nat) (f : Nat → UInt8) : Nat → Mem → Mem
  | 0, m => m
  | width + 1, m => Function.update (storeBytes a f width m) (wrap (a + width)) (f width)

def advance (df : Bool) (width a : Nat) : Nat :=
  if df then wrap (a + 4294967296 - width) else wrap (a + width)

def repStos (df : Bool) (width : Nat) (eax : UInt32) : (ecx edi : Nat) → Mem → Nat × Mem
  | 0, edi, m => (edi, m)
  | ecx + 1, edi, m =>
    repStos df width eax ecx (advance df width edi) (storeBytes edi (byteOf eax) width m)

def repMovs (df : Bool) (width : Nat) : (ecx edi esi : Nat) → Mem → (Nat × Nat) × Mem
  | 0, edi, esi, m => ((edi, esi), m)
  | ecx + 1, edi, esi, m =>
    repMovs df width ecx (advance df width edi) (advance df width esi)
      (storeBytes edi (fun k => m (wrap (esi + k))) width m)

def memsetBottom (eax : UInt32) : (edx edi : Nat) → Mem → Mem
  | 0, _, m => m
  | edx + 1, edi, m =>
    memsetBottom eax edx (wrap (edi + 1)) (Function.update m edi (byteOf eax 0))

def memsetAligned (eax : UInt32) (ecx edi : Nat) (c : Cpu) : Cpu :=
  let (edi, m) := repStos false 4 eax (ecx / 4) edi c.mem
  { df := false, mem := memsetBottom eax (ecx % 4) edi m }

def memsetTop (eax : UInt32) : (ecx edi : Nat) → Cpu → Cpu
  | 0, _, c => c
  | ecx + 1, edi, c =>
    if edi % 4 = 0 then memsetAligned eax (ecx + 1) edi c
    else memsetTop eax ecx (wrap (edi + 1))
      { c with mem := Function.update c.mem edi (byteOf eax 0) }

def memset (s c n : UInt32) (cpu : Cpu) : Cpu :=
  let c := c &&& 0xFF
  memsetTop (c <<< 24 ||| c <<< 16 ||| c <<< 8 ||| c) n.toNat s.toNat cpu

def memsetWord (s c n : UInt32) (cpu : Cpu) : Cpu :=
  { df := false, mem := (repStos false 2 c n.toNat s.toNat cpu.mem).2 }

def memsetDword (s c n : UInt32) (cpu : Cpu) : Cpu :=
  { df := false, mem := (repStos false 4 c n.toNat s.toNat cpu.mem).2 }

def memcpyBottom : (edx edi esi : Nat) → Mem → Mem
  | 0, _, _, m => m
  | edx + 1, edi, esi, m =>
    memcpyBottom edx (wrap (edi + 1)) (wrap (esi + 1)) (Function.update m edi (m esi))

def memcpyAligned (ecx edi esi : Nat) (c : Cpu) : Cpu :=
  let ((edi, esi), m) := repMovs false 4 (ecx / 4) edi esi c.mem
  { df := false, mem := memcpyBottom (ecx % 4) edi esi m }

def memcpyTop : (ecx edi esi : Nat) → Cpu → Cpu
  | 0, _, _, c => c
  | ecx + 1, edi, esi, c =>
    if edi % 4 = 0 then memcpyAligned (ecx + 1) edi esi c
    else memcpyTop ecx (wrap (edi + 1)) (wrap (esi + 1))
      { c with mem := Function.update c.mem edi (c.mem esi) }

def memcpy (dest src n : UInt32) (cpu : Cpu) : Cpu := memcpyTop n.toNat dest.toNat src.toNat cpu

def lastByte (a n : UInt32) : Nat := wrap (a.toNat + n.toNat + 4294967295)

/-- The flag is cleared, then set where the source lies below the destination. Nothing
clears it again behind the copy. -/
def memmove (dest src n : UInt32) (cpu : Cpu) : Cpu :=
  if dest ≤ src then
    { df := false, mem := (repMovs false 1 n.toNat dest.toNat src.toNat cpu.mem).2 }
  else
    { df := true, mem := (repMovs true 1 n.toNat (lastByte dest n) (lastByte src n) cpu.mem).2 }

inductive Call
  | memset (s c n : UInt32)
  | memsetWord (s c n : UInt32)
  | memsetDword (s c n : UInt32)
  | memcpy (dest src n : UInt32)
  | memmove (dest src n : UInt32)
  deriving DecidableEq

def step (cpu : Cpu) : Call → Cpu
  | .memset s c n => memset s c n cpu
  | .memsetWord s c n => memsetWord s c n cpu
  | .memsetDword s c n => memsetDword s c n cpu
  | .memcpy dest src n => memcpy dest src n cpu
  | .memmove dest src n => memmove dest src n cpu

def Upward : Call → Prop
  | .memmove dest src _ => src < dest
  | _ => False

instance : DecidablePred Upward := by
  intro call
  cases call <;> unfold Upward <;> infer_instance

theorem memsetTop_df (eax : UInt32) (ecx edi : Nat) (c : Cpu) (h : c.df = false) :
    (memsetTop eax ecx edi c).df = false := by
  induction ecx generalizing edi c with
  | zero => exact h
  | succ ecx ih =>
    rw [memsetTop]
    split
    · rfl
    · exact ih (wrap (edi + 1)) _ h

theorem memcpyTop_df (ecx edi esi : Nat) (c : Cpu) (h : c.df = false) :
    (memcpyTop ecx edi esi c).df = false := by
  induction ecx generalizing edi esi c with
  | zero => exact h
  | succ ecx ih =>
    rw [memcpyTop]
    split
    · rfl
    · exact ih (wrap (edi + 1)) (wrap (esi + 1)) _ h

theorem memmove_df (dest src n : UInt32) (cpu : Cpu) :
    (memmove dest src n cpu).df = decide (src < dest) := by
  rw [memmove]
  split
  · next h => exact (decide_eq_false (UInt32.not_lt.mpr h)).symm
  · next h => exact (decide_eq_true (UInt32.not_le.mp h)).symm

theorem step_df (cpu : Cpu) (call : Call) (h : cpu.df = false) :
    (step cpu call).df = false ↔ ¬ Upward call := by
  cases call with
  | memset s c n => exact iff_of_true (memsetTop_df _ _ _ cpu h) id
  | memsetWord s c n => exact iff_of_true rfl id
  | memsetDword s c n => exact iff_of_true rfl id
  | memcpy dest src n => exact iff_of_true (memcpyTop_df _ _ _ cpu h) id
  | memmove dest src n =>
    rw [step, memmove_df]
    exact decide_eq_false_iff_not

/-- The flag stays clear through the calls exactly when none of them moves upward. -/
theorem df_clear_iff (m : Mem) (calls : List Call) :
    (∀ pre, pre <+: calls → (run step { df := false, mem := m } pre).df = false) ↔
      ∀ call ∈ calls, ¬ Upward call := by
  have hcalls : Along step (fun _ call => ¬ Upward call) { df := false, mem := m } calls ↔
      ∀ call ∈ calls, ¬ Upward call := along_forall
  rw [← hcalls]
  apply observed_iff_along (J := fun cpu : Cpu => cpu.df = false)
    (P := fun cpu : Cpu => cpu.df = false) (D := fun _ _ => True)
  · exact fun cpu call hj _ hc => (step_df cpu call hj).mpr hc
  · exact fun _ hj => hj
  · exact fun cpu call hj _ hc hp => hc ((step_df cpu call hj).mp hp)
  · rfl
  · exact along_of_forall (fun _ _ => trivial) _ calls

/-- A program that is loaded comes from a block of the file system far below it. -/
theorem df_set_loading : ¬ ∀ (m : Mem) (calls pre : List Call), pre <+: calls →
    (run step { df := false, mem := m } pre).df = false := by
  intro h
  have hdf := h (fun _ => 0) [.memmove 0x8048000 0x412000 4] [.memmove 0x8048000 0x412000 4]
    (List.prefix_refl _)
  rw [run_cons, run_nil, step, memmove_df] at hdf
  exact absurd hdf (by decide)

theorem storeBytes_one (a : Nat) (f : Nat → UInt8) (m : Mem) (h : a < 4294967296) :
    storeBytes a f 1 m = Function.update m a (f 0) := by
  rw [storeBytes, storeBytes, Nat.add_zero, wrap_of_lt h]

theorem advance_false (width a : Nat) : advance false width a = wrap (a + width) := rfl

theorem wrap_add_le {a n : Nat} (h : a + n ≤ 4294967296) : wrap a + n ≤ 4294967296 :=
  (Nat.add_le_add_right (Nat.mod_le a _) n).trans h

/-- The only pointer that wraps around stands behind the last byte. -/
theorem movsbForward_wrap (dest src n : Nat) (m : Mem) (hd : dest + n ≤ 4294967296)
    (hs : src + n ≤ 4294967296) :
    Lib.movsbForward (wrap dest) (wrap src) n m = Lib.movsbForward dest src n m := by
  cases n with
  | zero => rfl
  | succ n => rw [wrap_of_lt (by omega), wrap_of_lt (by omega)]

theorem repMovs_forward (ecx edi esi : Nat) (m : Mem) (hd : edi + ecx ≤ 4294967296)
    (hs : esi + ecx ≤ 4294967296) :
    (repMovs false 1 ecx edi esi m).2 = Lib.movsbForward edi esi ecx m := by
  induction ecx generalizing edi esi m with
  | zero => rfl
  | succ ecx ih =>
    have hd' : edi + 1 + ecx ≤ 4294967296 := by omega
    have hs' : esi + 1 + ecx ≤ 4294967296 := by omega
    rw [repMovs, storeBytes_one _ _ _ (by omega), Nat.add_zero, wrap_of_lt (by omega),
      advance_false, advance_false, ih _ _ _ (wrap_add_le hd') (wrap_add_le hs'),
      movsbForward_wrap _ _ _ _ hd' hs', Lib.movsbForward]

theorem repMovs_backward (ecx dest src : Nat) (m : Mem) (hd : dest + ecx ≤ 4294967296)
    (hs : src + ecx ≤ 4294967296) :
    (repMovs true 1 ecx (wrap (dest + ecx + 4294967295)) (wrap (src + ecx + 4294967295)) m).2 =
      Lib.movsbBackward dest src ecx m := by
  induction ecx generalizing m with
  | zero => rfl
  | succ ecx ih =>
    have hlast : ∀ a, a + (ecx + 1) ≤ 4294967296 →
        wrap (a + (ecx + 1) + 4294967295) = a + ecx := by
      intro a ha
      simp only [wrap]
      omega
    have hdown : ∀ a, advance true 1 (a + ecx) = wrap (a + ecx + 4294967295) := by
      intro a
      rw [advance, if_pos rfl, show a + ecx + 4294967296 - 1 = a + ecx + 4294967295 by omega]
    rw [hlast dest hd, hlast src hs, repMovs, storeBytes_one _ _ _ (by omega), Nat.add_zero,
      wrap_of_lt (by omega), hdown, hdown, Lib.movsbBackward]
    exact ih _ (by omega) (by omega)

/-- Where no address wraps around, the instructions carry out the copy that the file
system is modelled with. -/
theorem memmove_lib (dest src n : UInt32) (cpu : Cpu) (hd : dest.toNat + n.toNat ≤ 4294967296)
    (hs : src.toNat + n.toNat ≤ 4294967296) :
    (memmove dest src n cpu).mem = Lib.memmove cpu.mem dest.toNat src.toNat n.toNat := by
  rw [memmove, Lib.memmove]
  by_cases h : dest ≤ src
  · rw [if_pos h, if_pos (UInt32.le_iff_toNat_le.mp h)]
    exact repMovs_forward _ _ _ _ hd hs
  · rw [if_neg h, if_neg (fun hle => h (UInt32.le_iff_toNat_le.mpr hle))]
    exact repMovs_backward _ _ _ _ hd hs

/-- Whatever the overlap, the destination gets the bytes that the source had, and nothing
else changes. -/
theorem memmove_moves (dest src n : UInt32) (cpu : Cpu)
    (hd : dest.toNat + n.toNat ≤ 4294967296) (hs : src.toNat + n.toNat ≤ 4294967296) :
    (∀ i, i < n.toNat →
      (memmove dest src n cpu).mem (dest.toNat + i) = cpu.mem (src.toNat + i)) ∧
    ∀ a, a < dest.toNat ∨ dest.toNat + n.toNat ≤ a →
      (memmove dest src n cpu).mem a = cpu.mem a := by
  rw [memmove_lib dest src n cpu hd hs, Lib.memmove_eq_fill]
  constructor
  · intro i hi
    exact fill_inside _ _ _ hi
  · intro a ha
    exact fill_outside _ _ _ ha

theorem memmove_moves_overlap :
    (∀ i, i < 3 → (memmove 11 10 3 ⟨false, UInt8.ofNat⟩).mem (11 + i) = UInt8.ofNat (10 + i)) ∧
    ∀ a, a < 11 ∨ 14 ≤ a → (memmove 11 10 3 ⟨false, UInt8.ofNat⟩).mem a = UInt8.ofNat a :=
  memmove_moves 11 10 3 ⟨false, UInt8.ofNat⟩ (by decide) (by decide)

end RedstoneOS.MemoryRoutines
