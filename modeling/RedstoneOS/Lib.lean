import RedstoneOS.Library.ByteMemory
import Mathlib.Data.Nat.Basic

namespace RedstoneOS.Lib

open Library.ByteMemory

abbrev Mem := Memory UInt8

def load32 (m : Mem) (a : Nat) : Nat :=
  (m a).toNat + 256 * (m (a + 1)).toNat + 65536 * (m (a + 2)).toNat + 16777216 * (m (a + 3)).toNat

def movsbForward (dest src : Nat) : Nat → Mem → Mem
  | 0, m => m
  | n + 1, m => movsbForward (dest + 1) (src + 1) n (Function.update m dest (m src))

/-- `rep movsb` with the direction flag set, from the last byte of both ranges down. -/
def movsbBackward (dest src : Nat) : Nat → Mem → Mem
  | 0, m => m
  | n + 1, m => movsbBackward dest src n (Function.update m (dest + n) (m (src + n)))

def memmove (m : Mem) (dest src n : Nat) : Mem :=
  if dest ≤ src then movsbForward dest src n m else movsbBackward dest src n m

/-- A string that is longer than the address space is never walked to its end. -/
def addressSpace : Nat := 4294967296

def strlenFrom (m : Mem) (s : Nat) : Nat → Nat → Nat
  | 0, len => len
  | fuel + 1, len => if m (s + len) = 0 then len else strlenFrom m s fuel (len + 1)

def strlen (m : Mem) (s : Nat) : Nat := strlenFrom m s addressSpace 0

def strncpyPad (dest : Nat) : Nat → Nat → Mem → Mem
  | 0, _, m => m
  | r + 1, i, m => strncpyPad dest r (i + 1) (Function.update m (dest + i) 0)

def strncpyFrom (dest src : Nat) : Nat → Nat → Mem → Mem
  | 0, _, m => m
  | r + 1, i, m =>
    if m (src + i) = 0 then strncpyPad dest (r + 1) i m
    else strncpyFrom dest src r (i + 1) (Function.update m (dest + i) (m (src + i)))

def strncpy (m : Mem) (dest src n : Nat) : Mem := strncpyFrom dest src n 0 m

def strncmpFrom (s₁ s₂ : Nat → UInt8) : Nat → Nat → Int
  | 0, _ => 0
  | r + 1, i =>
    if s₁ i ≠ s₂ i ∨ s₁ i = 0 then (s₁ i).toInt8.toInt - (s₂ i).toInt8.toInt
    else strncmpFrom s₁ s₂ r (i + 1)

def strncmp (s₁ s₂ : Nat → UInt8) (n : Nat) : Int := strncmpFrom s₁ s₂ n 0

theorem load32_congr {lo hi a : Nat} {m m' : Mem} (h : AgreeOn lo hi m m')
    (hlo : lo ≤ a) (hhi : a + 4 ≤ hi) : load32 m a = load32 m' a := by
  simp only [load32, h a (by omega) (by omega), h (a + 1) (by omega) (by omega),
    h (a + 2) (by omega) (by omega), h (a + 3) (by omega) (by omega)]

theorem movsbForward_add (dest src j n : Nat) (m : Mem) : movsbForward dest src (j + n) m =
    movsbForward (dest + j) (src + j) n (movsbForward dest src j m) := by
  induction j generalizing dest src m with
  | zero => rw [Nat.zero_add]; rfl
  | succ j ih =>
    rw [Nat.succ_add, movsbForward, ih, movsbForward, Nat.succ_add_eq_add_succ,
      Nat.succ_add_eq_add_succ]

theorem movsbForward_outside {dest n a : Nat} (src : Nat) (m : Mem)
    (ha : a < dest ∨ dest + n ≤ a) : movsbForward dest src n m a = m a := by
  induction n generalizing dest src m with
  | zero => rfl
  | succ n ih => rw [movsbForward, ih _ _ (by omega), Function.update_of_ne (by omega)]

theorem movsbForward_eq_fill (dest src n : Nat) (m : Mem) (h : dest ≤ src) :
    movsbForward dest src n m = fill m dest (fun i => m (src + i)) n := by
  induction n generalizing dest src m with
  | zero => simp [movsbForward]
  | succ n ih =>
    rw [movsbForward, ih (dest + 1) (src + 1) _ (by omega), ← fill_one m dest (fun _ => m src)]
    have hc : fill (fill m dest (fun _ => m src) 1) (dest + 1)
        (fun i => fill m dest (fun _ => m src) 1 (src + 1 + i)) n =
        fill (fill m dest (fun i => m (src + i)) 1) (dest + 1) (fun i => m (src + (1 + i))) n := by
      rw [fill_one, fill_one]
      apply fill_congr
      intro i _
      rw [Function.update_of_ne (by omega), Nat.add_assoc]
    rw [hc, fill_append m dest (fun i => m (src + i)) 1 n, Nat.add_comm 1 n]

theorem movsbBackward_eq_fill (dest src n : Nat) (m : Mem) (h : src < dest) :
    movsbBackward dest src n m = fill m dest (fun i => m (src + i)) n := by
  induction n generalizing m with
  | zero => simp [movsbBackward]
  | succ n ih =>
    rw [movsbBackward, ih]
    funext a
    by_cases ha : a = dest + n
    · subst ha
      rw [fill_outside _ _ _ (by omega), Function.update_self, fill_inside _ _ _ (by omega)]
    · by_cases hr : dest ≤ a ∧ a < dest + n
      · obtain ⟨i, rfl⟩ := Nat.exists_eq_add_of_le hr.1
        rw [fill_inside _ _ _ (by omega), fill_inside _ _ _ (by omega),
          Function.update_of_ne (by omega)]
      · rw [fill_outside _ _ _ (by omega), fill_outside _ _ _ (by omega),
          Function.update_of_ne ha]

/-- Whatever the overlap, `memmove` leaves in the destination what the source held before. -/
theorem memmove_eq_fill (m : Mem) (dest src n : Nat) :
    memmove m dest src n = fill m dest (fun i => m (src + i)) n := by
  by_cases h : dest ≤ src
  · rw [memmove, if_pos h, movsbForward_eq_fill dest src n m h]
  · rw [memmove, if_neg h, movsbBackward_eq_fill dest src n m (by omega)]

theorem strlenFrom_eq (m : Mem) (s : Nat) {fuel len k : Nat} (hk : len ≤ k)
    (hfuel : k - len ≤ fuel) (hne : ∀ j, len ≤ j → j < k → m (s + j) ≠ 0)
    (hz : k - len = fuel ∨ m (s + k) = 0) : strlenFrom m s fuel len = k := by
  induction fuel generalizing len with
  | zero =>
    simp only [strlenFrom]
    omega
  | succ fuel ih =>
    by_cases hlk : len = k
    · subst hlk
      have h0 : m (s + len) = 0 := by
        obtain hz | hz := hz
        · omega
        · exact hz
      simp only [strlenFrom, if_pos h0]
    · have hl := hne len le_rfl (by omega)
      rw [strlenFrom, if_neg hl]
      exact ih (by omega) (by omega) (fun j hj => hne j (by omega)) (hz.imp_left (by omega))

theorem le_strlenFrom (m : Mem) (s fuel len : Nat) : len ≤ strlenFrom m s fuel len := by
  induction fuel generalizing len with
  | zero => exact le_rfl
  | succ fuel ih =>
    rw [strlenFrom]
    split
    · exact le_rfl
    · exact (Nat.le_succ len).trans (ih (len + 1))

theorem strlenFrom_ge (m : Mem) (s : Nat) {fuel len k : Nat} (hk : len ≤ k)
    (hfuel : k - len ≤ fuel) (hne : ∀ j, len ≤ j → j < k → m (s + j) ≠ 0) :
    k ≤ strlenFrom m s fuel len := by
  induction fuel generalizing len with
  | zero =>
    have hl := le_strlenFrom m s 0 len
    omega
  | succ fuel ih =>
    by_cases hlk : len = k
    · subst hlk
      exact le_strlenFrom m s (fuel + 1) len
    · rw [strlenFrom, if_neg (hne len le_rfl (by omega))]
      exact ih (by omega) (by omega) (fun j hj => hne j (by omega))

theorem strlenFrom_le (m : Mem) (s fuel len : Nat) : strlenFrom m s fuel len ≤ len + fuel := by
  induction fuel generalizing len with
  | zero => exact Nat.le_refl _
  | succ fuel ih =>
    rw [strlenFrom]
    split
    · omega
    · exact (ih (len + 1)).trans (by omega)

theorem strlenFrom_ne (m : Mem) (s : Nat) {fuel len j : Nat} (hj : len ≤ j)
    (hlt : j < strlenFrom m s fuel len) : m (s + j) ≠ 0 := by
  induction fuel generalizing len with
  | zero =>
    simp only [strlenFrom] at hlt
    omega
  | succ fuel ih =>
    rw [strlenFrom] at hlt
    split at hlt
    · omega
    · next hne =>
      by_cases hl : j = len
      · rwa [hl]
      · exact ih (by omega) hlt

theorem strlenFrom_stop (m : Mem) (s : Nat) {fuel len : Nat}
    (h : strlenFrom m s fuel len < len + fuel) : m (s + strlenFrom m s fuel len) = 0 := by
  induction fuel generalizing len with
  | zero =>
    simp only [strlenFrom] at h
    omega
  | succ fuel ih =>
    rw [strlenFrom] at h ⊢
    split at h
    · next h0 => rwa [if_pos h0]
    · next hne =>
      rw [if_neg hne]
      exact ih (by omega)

theorem strlenFrom_congr {m m' : Mem} (s : Nat) {fuel len : Nat}
    (h : ∀ j, len ≤ j → j < len + fuel → m (s + j) = m' (s + j)) :
    strlenFrom m s fuel len = strlenFrom m' s fuel len := by
  induction fuel generalizing len with
  | zero => rfl
  | succ fuel ih =>
    simp only [strlenFrom, h len (by omega) (by omega)]
    rw [ih fun j hj hlt => h j (by omega) (by omega)]

theorem strncpyPad_outside (dest : Nat) {r i a : Nat} (m : Mem)
    (ha : a < dest + i ∨ dest + i + r ≤ a) : strncpyPad dest r i m a = m a := by
  induction r generalizing i m with
  | zero => rfl
  | succ r ih => rw [strncpyPad, ih _ (by omega), Function.update_of_ne (by omega)]

theorem strncpyFrom_outside (dest src : Nat) {r i a : Nat} (m : Mem)
    (ha : a < dest + i ∨ dest + i + r ≤ a) : strncpyFrom dest src r i m a = m a := by
  induction r generalizing i m with
  | zero => rfl
  | succ r ih =>
    rw [strncpyFrom]
    split
    · exact strncpyPad_outside dest m ha
    · rw [ih _ (by omega), Function.update_of_ne (by omega)]

theorem strncpyFrom_copies (dest src : Nat) {r i k j : Nat} (m : Mem) (hk : k ≤ i + r)
    (hd : src + k ≤ dest ∨ dest + i + r ≤ src) (hne : ∀ j, i ≤ j → j < k → m (src + j) ≠ 0)
    (hi : i ≤ j) (hj : j < k) : strncpyFrom dest src r i m (dest + j) = m (src + j) := by
  induction r generalizing i m with
  | zero => omega
  | succ r ih =>
    rw [strncpyFrom, if_neg (hne i le_rfl (by omega))]
    by_cases hij : j = i
    · subst hij
      rw [strncpyFrom_outside _ _ _ (by omega), Function.update_self]
    · have hs : ∀ l, i + 1 ≤ l → l < k →
          Function.update m (dest + i) (m (src + i)) (src + l) = m (src + l) :=
        fun l hl hlk => Function.update_of_ne (by omega) _ _
      rw [ih _ (by omega) (by omega) (fun l hl hlk => by rw [hs l hl hlk]; exact hne l (by omega) hlk)
        (by omega), hs j (by omega) hj]

end RedstoneOS.Lib
