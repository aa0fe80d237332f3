import RedstoneOS.MemoryRoutines
import Mathlib.Algebra.Group.Nat.Defs

namespace RedstoneOS.MemoryPhases

open Filesystem (wrap)
open ReadData (wrap_of_lt)
open Lib Library.ByteMemory MemoryRoutines

def memsetEax (c : UInt32) : UInt32 :=
  let c := c &&& 0xFF
  c <<< 24 ||| c <<< 16 ||| c <<< 8 ||| c

def memsetBytes (c : UInt32) (s : Nat) : Nat → Mem → Mem
  | 0, m => m
  | n + 1, m => memsetBytes c (s + 1) n (Function.update m s c.toUInt8)

def Apart (dest src n : Nat) : Prop := dest + n ≤ src ∨ src + n ≤ dest

theorem memsetBytes_add (c : UInt32) (s j n : Nat) (m : Mem) :
    memsetBytes c s (j + n) m = memsetBytes c (s + j) n (memsetBytes c s j m) := by
  induction j generalizing s m with
  | zero => rw [Nat.zero_add]; rfl
  | succ j ih => rw [Nat.succ_add, memsetBytes, ih, memsetBytes, Nat.succ_add_eq_add_succ]

theorem memsetBytes_outside (c : UInt32) {s n a : Nat} (m : Mem) (ha : a < s ∨ s + n ≤ a) :
    memsetBytes c s n m a = m a := by
  induction n generalizing s m with
  | zero => rfl
  | succ n ih => rw [memsetBytes, ih _ (by omega), Function.update_of_ne (by omega)]

theorem shifted_toNat (d k : UInt32) (hd : d.toNat < 256) (hk : k.toNat ≤ 24) :
    (d <<< k).toNat = 2 ^ k.toNat * d.toNat := by
  have hpow : 2 ^ k.toNat ≤ 2 ^ 24 := Nat.pow_le_pow_right (by decide) hk
  have hlt : d.toNat * 2 ^ k.toNat < 2 ^ 32 :=
    (Nat.mul_lt_mul_of_lt_of_le hd hpow (by decide)).trans_eq (by decide)
  rw [UInt32.toNat_shiftLeft, Nat.mod_eq_of_lt (show k.toNat < 32 by omega), Nat.shiftLeft_eq,
    Nat.mod_eq_of_lt hlt, Nat.mul_comm]

theorem memsetEax_toNat (c : UInt32) : (memsetEax c).toNat = 16843009 * (c.toNat % 256) := by
  have hc : (c &&& 0xFF).toNat = c.toNat % 256 := by
    rw [UInt32.toNat_and]
    exact Nat.and_two_pow_sub_one_eq_mod c.toNat 8
  have hd : (c &&& 0xFF).toNat < 256 := hc ▸ Nat.mod_lt _ (by decide)
  have hor : ∀ i a b : Nat, b < 2 ^ i → 2 ^ i * a ||| b = 2 ^ i * a + b :=
    fun i a b hb => (Nat.two_pow_add_eq_or_of_lt hb a).symm
  rw [memsetEax, UInt32.toNat_or, UInt32.toNat_or, UInt32.toNat_or,
    shifted_toNat _ 24 hd (by decide), shifted_toNat _ 16 hd (by decide),
    shifted_toNat _ 8 hd (by decide), ← hc]
  generalize (c &&& 0xFF).toNat = d at hd
  calc
    2 ^ 24 * d ||| 2 ^ 16 * d ||| 2 ^ 8 * d ||| d
      = 2 ^ 16 * (257 * d) ||| 2 ^ 8 * d ||| d := by rw [hor 24 d _ (by omega)]; congr 2; omega
    _ = 2 ^ 8 * (65793 * d) ||| d := by rw [hor 16 _ _ (by omega)]; congr 1; omega
    _ = 16843009 * d := by rw [hor 8 _ _ (by omega)]; omega

theorem byteOf_memsetEax (c : UInt32) {k : Nat} (hk : k < 4) :
    byteOf (memsetEax c) k = c.toUInt8 := by
  have hd : c.toNat % 256 < 256 := Nat.mod_lt _ (by decide)
  have h : k = 0 ∨ k = 1 ∨ k = 2 ∨ k = 3 := by omega
  apply UInt8.toNat_inj.mp
  rw [byteOf, memsetEax_toNat, UInt8.toNat_ofNat', UInt32.toNat_toUInt8, Nat.shiftRight_eq_div_pow]
  generalize c.toNat % 256 = d at hd ⊢
  -- The factor is 0x01010101, and each division by 256 takes one byte off it.
  obtain rfl | rfl | rfl | rfl := h
  · omega
  · have hq : 16843009 * d / 256 = 65793 * d := by omega
    omega
  · have hq : 16843009 * d / 65536 = 257 * d := by omega
    omega
  · have hq : 16843009 * d / 16777216 = d := by omega
    omega

theorem storeBytes_memsetEax (c : UInt32) (s : Nat) (m : Mem) (hs : s + 4 ≤ 4294967296) :
    storeBytes s (byteOf (memsetEax c)) 4 m = memsetBytes c s 4 m := by
  simp only [storeBytes, memsetBytes, Nat.add_assoc, Nat.reduceAdd, Nat.add_zero]
  rw [byteOf_memsetEax c (by decide), byteOf_memsetEax c (by decide),
    byteOf_memsetEax c (by decide), byteOf_memsetEax c (by decide), wrap_of_lt (by omega),
    wrap_of_lt (by omega), wrap_of_lt (by omega), wrap_of_lt (by omega)]

/-- A double word that is read at once holds what the plain loop reads byte by byte. -/
theorem storeBytes_movsb (dest src : Nat) (m : Mem) (h : Apart dest src 4)
    (hd : dest + 4 ≤ 4294967296) (hs : src + 4 ≤ 4294967296) :
    storeBytes dest (fun k => m (wrap (src + k))) 4 m = movsbForward dest src 4 m := by
  rw [Apart] at h
  simp only [storeBytes, movsbForward, Nat.add_assoc, Nat.reduceAdd, Nat.add_zero]
  rw [wrap_of_lt (show dest < _ by omega), wrap_of_lt (show dest + 1 < _ by omega),
    wrap_of_lt (show dest + 2 < _ by omega), wrap_of_lt (show dest + 3 < _ by omega),
    wrap_of_lt (show src < _ by omega), wrap_of_lt (show src + 1 < _ by omega),
    wrap_of_lt (show src + 2 < _ by omega), wrap_of_lt (show src + 3 < _ by omega)]
  simp (disch := omega) only [Function.update_of_ne]

theorem memsetBytes_wrap (c : UInt32) (s n : Nat) (m : Mem) (h : s + n ≤ 4294967296) :
    memsetBytes c (wrap s) n m = memsetBytes c s n m := by
  cases n with
  | zero => rfl
  | succ n => rw [wrap_of_lt (by omega)]

theorem Apart.wrapped {dest src n : Nat} (h : Apart dest src n) (hd : dest + n ≤ 4294967296)
    (hs : src + n ≤ 4294967296) : Apart (wrap dest) (wrap src) n := by
  cases n with
  | zero => exact (Nat.le_total _ _)
  | succ n => rwa [wrap_of_lt (by omega), wrap_of_lt (by omega)]

theorem Apart.drop {dest src n : Nat} (j : Nat) (h : Apart dest src (j + n)) :
    Apart (dest + j) (src + j) n := by
  rw [Apart] at h ⊢
  omega

theorem Apart.take {dest src n k : Nat} (h : Apart dest src n) (hk : k ≤ n) : Apart dest src k := by
  rw [Apart] at h ⊢
  omega

theorem wrap_lt (a : Nat) : wrap a < 4294967296 := Nat.mod_lt a (by decide)

theorem wrap_wrap_add (a n : Nat) : wrap (wrap a + n) = wrap (a + n) := Nat.mod_add_mod a _ n

theorem repStos_memsetEax (c : UInt32) (ecx edi : Nat) (m : Mem) (h : edi < 4294967296)
    (hend : edi + 4 * ecx ≤ 4294967296) :
    repStos false 4 (memsetEax c) ecx edi m =
      (wrap (edi + 4 * ecx), memsetBytes c edi (4 * ecx) m) := by
  induction ecx generalizing edi m with
  | zero => rw [repStos, Nat.mul_zero, Nat.add_zero, wrap_of_lt h, memsetBytes]
  | succ ecx ih =>
    have hend' : edi + 4 + 4 * ecx ≤ 4294967296 := by omega
    rw [repStos, storeBytes_memsetEax c edi m (by omega), advance_false,
      ih _ _ (wrap_lt _) (wrap_add_le hend'), wrap_wrap_add, memsetBytes_wrap _ _ _ _ hend',
      show 4 * (ecx + 1) = 4 + 4 * ecx by omega, memsetBytes_add, Nat.add_assoc]

theorem repMovs_movsb (ecx edi esi : Nat) (m : Mem) (h : Apart edi esi (4 * ecx))
    (hd : edi < 4294967296) (hs : esi < 4294967296) (hdend : edi + 4 * ecx ≤ 4294967296)
    (hsend : esi + 4 * ecx ≤ 4294967296) :
    repMovs false 4 ecx edi esi m =
      ((wrap (edi + 4 * ecx), wrap (esi + 4 * ecx)), movsbForward edi esi (4 * ecx) m) := by
  induction ecx generalizing edi esi m with
  | zero =>
    rw [repMovs, Nat.mul_zero, Nat.add_zero, Nat.add_zero, wrap_of_lt hd, wrap_of_lt hs,
      movsbForward]
  | succ ecx ih =>
    have hdend' : edi + 4 + 4 * ecx ≤ 4294967296 := by omega
    have hsend' : esi + 4 + 4 * ecx ≤ 4294967296 := by omega
    rw [show 4 * (ecx + 1) = 4 + 4 * ecx by omega] at h ⊢
    have hrest := (h.drop 4).wrapped hdend' hsend'
    rw [repMovs, storeBytes_movsb edi esi m (h.take (by omega)) (by omega) (by omega),
      advance_false, advance_false, ih _ _ _ hrest (wrap_lt _) (wrap_lt _) (wrap_add_le hdend')
        (wrap_add_le hsend'), wrap_wrap_add, wrap_wrap_add, movsbForward_wrap _ _ _ _ hdend' hsend',
      movsbForward_add, Nat.add_assoc, Nat.add_assoc]

theorem memsetBottom_eq (c : UInt32) (edx edi : Nat) (m : Mem) (h : edi + edx ≤ 4294967296) :
    memsetBottom (memsetEax c) edx edi m = memsetBytes c edi edx m := by
  induction edx generalizing edi m with
  | zero => rfl
  | succ edx ih =>
    have h' : edi + 1 + edx ≤ 4294967296 := by omega
    rw [memsetBottom, memsetBytes, byteOf_memsetEax c (by decide), ih _ _ (wrap_add_le h'),
      memsetBytes_wrap _ _ _ _ h']

theorem memcpyBottom_eq (edx edi esi : Nat) (m : Mem) (hd : edi + edx ≤ 4294967296)
    (hs : esi + edx ≤ 4294967296) :
    memcpyBottom edx edi esi m = movsbForward edi esi edx m := by
  induction edx generalizing edi esi m with
  | zero => rfl
  | succ edx ih =>
    have hd' : edi + 1 + edx ≤ 4294967296 := by omega
    have hs' : esi + 1 + edx ≤ 4294967296 := by omega
    rw [memcpyBottom, movsbForward, ih _ _ _ (wrap_add_le hd') (wrap_add_le hs'),
      movsbForward_wrap _ _ _ _ hd' hs']

theorem memsetAligned_mem (c : UInt32) (ecx edi : Nat) (cpu : Cpu) (h : edi < 4294967296)
    (hend : edi + ecx ≤ 4294967296) :
    (memsetAligned (memsetEax c) ecx edi cpu).mem = memsetBytes c edi ecx cpu.mem := by
  have hrest : edi + 4 * (ecx / 4) + ecx % 4 ≤ 4294967296 := by omega
  have hsplit := memsetBytes_add c edi (4 * (ecx / 4)) (ecx % 4) cpu.mem
  rw [Nat.div_add_mod] at hsplit
  rw [memsetAligned, repStos_memsetEax c _ _ _ h (by omega), hsplit]
  exact (memsetBottom_eq c _ _ _ (wrap_add_le hrest)).trans (memsetBytes_wrap c _ _ _ hrest)

theorem memcpyAligned_mem (ecx edi esi : Nat) (cpu : Cpu) (h : Apart edi esi ecx)
    (hd : edi < 4294967296) (hs : esi < 4294967296) (hdend : edi + ecx ≤ 4294967296)
    (hsend : esi + ecx ≤ 4294967296) :
    (memcpyAligned ecx edi esi cpu).mem = movsbForward edi esi ecx cpu.mem := by
  have hdrest : edi + 4 * (ecx / 4) + ecx % 4 ≤ 4294967296 := by omega
  have hsrest : esi + 4 * (ecx / 4) + ecx % 4 ≤ 4294967296 := by omega
  have hsplit := movsbForward_add edi esi (4 * (ecx / 4)) (ecx % 4) cpu.mem
  rw [Nat.div_add_mod] at hsplit
  rw [memcpyAligned, repMovs_movsb _ _ _ _ (h.take (by omega)) hd hs (by omega) (by omega), hsplit]
  exact (memcpyBottom_eq _ _ _ _ (wrap_add_le hdrest) (wrap_add_le hsrest)).trans
    (movsbForward_wrap _ _ _ _ hdrest hsrest)

theorem memsetTop_mem (c : UInt32) (ecx edi : Nat) (cpu : Cpu) (h : edi + ecx ≤ 4294967296) :
    (memsetTop (memsetEax c) ecx edi cpu).mem = memsetBytes c edi ecx cpu.mem := by
  induction ecx generalizing edi cpu with
  | zero => rfl
  | succ ecx ih =>
    rw [memsetTop]
    split
    · exact memsetAligned_mem c (ecx + 1) edi cpu (by omega) h
    · have h' : edi + 1 + ecx ≤ 4294967296 := by omega
      rw [ih _ _ (wrap_add_le h'), memsetBytes_wrap _ _ _ _ h', memsetBytes,
        byteOf_memsetEax c (by decide)]

theorem memcpyTop_mem (ecx edi esi : Nat) (cpu : Cpu) (h : Apart edi esi ecx)
    (hd : edi + ecx ≤ 4294967296) (hs : esi + ecx ≤ 4294967296) :
    (memcpyTop ecx edi esi cpu).mem = movsbForward edi esi ecx cpu.mem := by
  induction ecx generalizing edi esi cpu with
  | zero => rfl
  | succ ecx ih =>
    rw [memcpyTop]
    split
    · exact memcpyAligned_mem (ecx + 1) edi esi cpu h (by omega) (by omega) hd hs
    · have hd' : edi + 1 + ecx ≤ 4294967296 := by omega
      have hs' : esi + 1 + ecx ≤ 4294967296 := by omega
      rw [Nat.add_comm] at h
      rw [ih _ _ _ ((h.drop 1).wrapped hd' hs') (wrap_add_le hd') (wrap_add_le hs'),
        movsbForward_wrap _ _ _ _ hd' hs', movsbForward]

/-- Whatever the alignment and the count, the three phases make the plain loop. -/
theorem phases_bytewise (cpu : Cpu) :
    (∀ s c n : UInt32, s.toNat + n.toNat ≤ 4294967296 →
      (memset s c n cpu).mem = memsetBytes c s.toNat n.toNat cpu.mem ∧
      ∀ a, a < s.toNat ∨ s.toNat + n.toNat ≤ a → (memset s c n cpu).mem a = cpu.mem a) ∧
    ∀ dest src n : UInt32, dest.toNat + n.toNat ≤ 4294967296 →
      src.toNat + n.toNat ≤ 4294967296 → Apart dest.toNat src.toNat n.toNat →
      (memcpy dest src n cpu).mem = movsbForward dest.toNat src.toNat n.toNat cpu.mem ∧
      ∀ a, a < dest.toNat ∨ dest.toNat + n.toNat ≤ a →
        (memcpy dest src n cpu).mem a = cpu.mem a := by
  constructor
  · intro s c n h
    have hmem : (memset s c n cpu).mem = memsetBytes c s.toNat n.toNat cpu.mem :=
      memsetTop_mem c n.toNat s.toNat cpu h
    refine ⟨hmem, fun a ha => ?_⟩
    rw [hmem]
    exact memsetBytes_outside c cpu.mem ha
  · intro dest src n hd hs h
    have hmem : (memcpy dest src n cpu).mem = movsbForward dest.toNat src.toNat n.toNat cpu.mem :=
      memcpyTop_mem n.toNat dest.toNat src.toNat cpu h hd hs
    refine ⟨hmem, fun a ha => ?_⟩
    rw [hmem]
    exact movsbForward_outside src.toNat cpu.mem ha

/-- A fill whose count ends before a double word is reached, and a copy through all three
phases. -/
theorem phases_bytewise_short :
    ((memset 5 0x141 2 ⟨true, UInt8.ofNat⟩).mem = memsetBytes 0x141 5 2 UInt8.ofNat ∧
      ∀ a, a < 5 ∨ 7 ≤ a → (memset 5 0x141 2 ⟨true, UInt8.ofNat⟩).mem a = UInt8.ofNat a) ∧
    (memcpy 3 16 9 ⟨true, UInt8.ofNat⟩).mem = movsbForward 3 16 9 UInt8.ofNat ∧
      ∀ a, a < 3 ∨ 12 ≤ a → (memcpy 3 16 9 ⟨true, UInt8.ofNat⟩).mem a = UInt8.ofNat a :=
  ⟨(phases_bytewise ⟨true, UInt8.ofNat⟩).1 5 0x141 2 (by decide),
    (phases_bytewise ⟨true, UInt8.ofNat⟩).2 3 16 9 (by decide) (by decide)
      (Or.inl (show 3 + 9 ≤ 16 by decide))⟩

end RedstoneOS.MemoryPhases
