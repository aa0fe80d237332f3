import RedstoneOS.Library.Extents

namespace RedstoneOS.Malloc

open Library.Extents

def dynamicAddrStart : Nat := 0x0800000
def kb1 : Nat := 1024
def kb4 : Nat := 0x1000

/-- `dynamic_memory_table` has `kb4` cells. The memory behind it is no part of the array, but
the look-ahead of `malloc` reads it. -/
abbrev Table := Nat → UInt8

def initDynamicMemory (table : Table) : Table := fun i => if i < kb4 then 0 else table i

/-- The number of KB that is recorded for a request, cast to 8 bits. -/
def kbSize (size : Nat) : UInt8 := UInt8.ofNat (size / kb1 + 1)

def checkSpace (table : Table) (newIndex : Nat) : Nat → Bool
  | 0 => true
  | n + 1 => checkSpace table newIndex n && table (newIndex + n) == 0

/-- The `while` loop of `malloc`. At a free cell without room behind it `new_index` stays as it
is, so that the same iteration repeats. -/
def mallocLoop (table : Table) (kbSize : UInt8) : Nat → Nat → Option Nat
  | 0, _ => none
  | fuel + 1, newIndex =>
    if newIndex < kb4 then
      if table newIndex ≠ 0 then mallocLoop table kbSize fuel (newIndex + (table newIndex).toNat)
      else if checkSpace table newIndex kbSize.toNat then some newIndex
      else mallocLoop table kbSize fuel newIndex
    else some newIndex

inductive MallocOutcome
  | hang
  | null
  | pointer (p : Nat) (table : Table)

def malloc (size : Nat) (table : Table) : MallocOutcome :=
  match mallocLoop table (kbSize size) (kb4 + 1) 0 with
  | none => .hang
  | some newIndex =>
    if kb4 ≤ newIndex then .null
    else .pointer (dynamicAddrStart + newIndex * kb1) (Function.update table newIndex (kbSize size))

/-- The index of a pointer's cell, in 32-bit arithmetic. -/
def cellIndex (arg : Nat) : Nat := (arg + 4294967296 - dynamicAddrStart) % 4294967296 / kb1

def free (arg : Nat) (table : Table) : Table := Function.update table (cellIndex arg) 0

def extents (table : Table) : Nat → Nat := UInt8.toNat ∘ table

variable {table : Table} {kb : UInt8} {fuel fuel' i j : Nat}

theorem extents_eq_zero : extents table i = 0 ↔ table i = 0 := by
  rw [extents, Function.comp_apply, ← UInt8.toNat_inj]
  rfl

theorem extents_ne_zero : extents table i ≠ 0 ↔ table i ≠ 0 := extents_eq_zero.not

theorem extents_update (table : Table) (i : Nat) (v : UInt8) :
    extents (Function.update table i v) = Function.update (extents table) i v.toNat :=
  Function.comp_update ..

theorem checkSpace_iff {n : Nat} :
    checkSpace table i n = true ↔ ∀ j, j < n → extents table (i + j) = 0 := by
  induction n with
  | zero => simp [checkSpace]
  | succ n ih =>
    rw [checkSpace, Bool.and_eq_true, ih, beq_iff_eq, ← extents_eq_zero]
    refine ⟨fun h j hj => ?_, fun h => ⟨fun j hj => h j (by omega), h n (by omega)⟩⟩
    obtain hlt | rfl := Nat.lt_succ_iff_lt_or_eq.mp hj
    · exact h.1 j hlt
    · exact h.2

theorem mallocLoop_past (h : kb4 ≤ i) : mallocLoop table kb (fuel + 1) i = some i := by
  rw [mallocLoop, if_neg (by omega)]

theorem mallocLoop_jump (h : i < kb4) (hi : table i ≠ 0) :
    mallocLoop table kb (fuel + 1) i = mallocLoop table kb fuel (i + extents table i) := by
  rw [mallocLoop, if_pos h, if_pos hi]
  rfl

theorem mallocLoop_stop (h : i < kb4) (hi : table i = 0)
    (hs : checkSpace table i kb.toNat = true) : mallocLoop table kb (fuel + 1) i = some i := by
  rw [mallocLoop, if_pos h, if_neg (not_not.mpr hi), if_pos hs]

theorem mallocLoop_stuck (h : i < kb4) (hi : table i = 0)
    (hs : ¬ checkSpace table i kb.toNat = true) : mallocLoop table kb fuel i = none := by
  induction fuel with
  | zero => rfl
  | succ fuel ih => rw [mallocLoop, if_pos h, if_neg (not_not.mpr hi), if_neg hs, ih]

theorem mallocLoop_cases (h : mallocLoop table kb (fuel + 1) i = some j) :
    (kb4 ≤ i ∧ j = i) ∨
    (i < kb4 ∧ table i = 0 ∧ checkSpace table i kb.toNat = true ∧ j = i) ∨
    (i < kb4 ∧ table i ≠ 0 ∧ mallocLoop table kb fuel (i + extents table i) = some j) := by
  by_cases hi : i < kb4
  · by_cases hzero : table i = 0
    · by_cases hs : checkSpace table i kb.toNat = true
      · rw [mallocLoop_stop hi hzero hs, Option.some.injEq] at h
        exact Or.inr (Or.inl ⟨hi, hzero, hs, h.symm⟩)
      · rw [mallocLoop_stuck hi hzero hs] at h
        cases h
    · rw [mallocLoop_jump hi hzero] at h
      exact Or.inr (Or.inr ⟨hi, hzero, h⟩)
  · rw [mallocLoop_past (by omega), Option.some.injEq] at h
    exact Or.inl ⟨by omega, h.symm⟩

theorem mallocLoop_mono (hle : fuel ≤ fuel') (h : mallocLoop table kb fuel i = some j) :
    mallocLoop table kb fuel' i = some j := by
  induction fuel generalizing i fuel' with
  | zero => cases h
  | succ fuel ih =>
    obtain ⟨fuel', rfl⟩ := Nat.exists_eq_succ_of_ne_zero (show fuel' ≠ 0 by omega)
    obtain ⟨hi, rfl⟩ | ⟨hi, hzero, hs, rfl⟩ | ⟨hi, hzero, hrest⟩ := mallocLoop_cases h
    · exact mallocLoop_past hi
    · exact mallocLoop_stop hi hzero hs
    · rw [mallocLoop_jump hi hzero]
      exact ih (by omega) hrest

/-- A search that ends at all ends within the iterations that `malloc` allows it. -/
theorem mallocLoop_within (h : mallocLoop table kb fuel i = some j) :
    mallocLoop table kb (kb4 + 1) i = some j := by
  suffices hw : mallocLoop table kb (kb4 - i + 1) i = some j from
    mallocLoop_mono (by omega) hw
  induction fuel generalizing i with
  | zero => cases h
  | succ fuel ih =>
    obtain ⟨hi, rfl⟩ | ⟨hi, hzero, hs, rfl⟩ | ⟨hi, hzero, hrest⟩ := mallocLoop_cases h
    · exact mallocLoop_past hi
    · exact mallocLoop_stop hi hzero hs
    · have hpos := extents_ne_zero.mpr hzero
      rw [mallocLoop_jump hi hzero]
      exact mallocLoop_mono (by omega) (ih hrest)

/-- On a table of disjoint extents the search stops between two of them. -/
theorem mallocLoop_found (hsep : Separated kb4 (extents table))
    (hb : Boundary kb4 (extents table) i) (h : mallocLoop table kb fuel i = some j)
    (hj : j < kb4) :
    Boundary kb4 (extents table) j ∧ ∀ k, k < kb.toNat → extents table (j + k) = 0 := by
  induction fuel generalizing i with
  | zero => cases h
  | succ fuel ih =>
    obtain ⟨hi, rfl⟩ | ⟨hi, hzero, hs, rfl⟩ | ⟨hi, hzero, hrest⟩ := mallocLoop_cases h
    · omega
    · exact ⟨hb, checkSpace_iff.mp hs⟩
    · exact ih (hb.jump hsep (extents_ne_zero.mpr hzero)) hrest

theorem mallocLoop_zero (h : mallocLoop table kb fuel i = some j) (hj : j < kb4) : table j = 0 := by
  induction fuel generalizing i with
  | zero => cases h
  | succ fuel ih =>
    obtain ⟨hi, rfl⟩ | ⟨hi, hzero, hs, rfl⟩ | ⟨hi, hzero, hrest⟩ := mallocLoop_cases h
    · omega
    · exact hzero
    · exact ih hrest

variable {size p : Nat} {table' : Table}

theorem cellIndex_ptr (hi : i < kb4) : cellIndex (dynamicAddrStart + i * kb1) = i := by
  simp only [cellIndex, dynamicAddrStart, kb1, kb4] at hi ⊢
  omega

theorem toNat_kbSize (hs : size < 255 * kb1) : (kbSize size).toNat = size / kb1 + 1 := by
  simp only [kb1] at hs
  rw [kbSize, UInt8.toNat_ofNat', kb1]
  exact Nat.mod_eq_of_lt (by omega)

/-- What `malloc` does when it returns a pointer. -/
theorem malloc_found (hm : malloc size table = .pointer p table') :
    ∃ j, j < kb4 ∧ mallocLoop table (kbSize size) (kb4 + 1) 0 = some j ∧
      p = dynamicAddrStart + j * kb1 ∧ table' = Function.update table j (kbSize size) := by
  unfold malloc at hm
  split at hm
  · simp at hm
  · rename_i j hj
    split at hm
    · simp at hm
    · rename_i hlt
      simp only [MallocOutcome.pointer.injEq] at hm
      obtain ⟨rfl, rfl⟩ := hm
      exact ⟨j, by omega, hj, rfl, rfl⟩

theorem malloc_pointer (hm : malloc size table = .pointer p table') :
    ∃ j, j < kb4 ∧ p = dynamicAddrStart + j * kb1 ∧
      table' = Function.update table j (kbSize size) ∧
      (Separated kb4 (extents table) → Boundary kb4 (extents table) j ∧
        ∀ k, k < (kbSize size).toNat → extents table (j + k) = 0) := by
  obtain ⟨j, hj, hloop, hp, htable⟩ := malloc_found hm
  exact ⟨j, hj, hp, htable, fun hsep => mallocLoop_found hsep boundary_zero hloop hj⟩

theorem malloc_eq (hj : j < kb4) (h : mallocLoop table (kbSize size) (kb4 + 1) 0 = some j) :
    malloc size table =
      .pointer (dynamicAddrStart + j * kb1) (Function.update table j (kbSize size)) := by
  simp only [malloc, h]
  rw [if_neg (by omega)]

end RedstoneOS.Malloc
