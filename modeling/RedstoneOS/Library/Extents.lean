import Mathlib.Logic.Function.Basic

namespace RedstoneOS.Library.Extents

variable {len : Nat → Nat} {n i j c : Nat}

/-- A cell with a nonzero entry starts an extent of that many cells. The extents that start
in the first `n` cells are pairwise disjoint. -/
def Separated (n : Nat) (len : Nat → Nat) : Prop :=
  ∀ i j, i < j → j < n → len i ≠ 0 → len j ≠ 0 → i + len i ≤ j

theorem Separated.congr {len' : Nat → Nat} (hs : Separated n len)
    (h : ∀ i, i < n → len' i = len i) : Separated n len' := by
  intro i j hij hj hi hlen
  rw [h i (by omega)] at hi ⊢
  rw [h j hj] at hlen
  exact hs i j hij hj hi hlen

/-- No extent that starts below the cell reaches it. -/
def Boundary (n : Nat) (len : Nat → Nat) (i : Nat) : Prop :=
  ∀ j, j < i → j < n → len j ≠ 0 → j + len j ≤ i

theorem boundary_zero : Boundary n len 0 := fun _ hj => absurd hj (Nat.not_lt_zero _)

theorem separated_of_zero (h : ∀ i, i < n → len i = 0) : Separated n len :=
  fun i j hij hj hi => absurd (h i (by omega)) hi

theorem Boundary.jump (hs : Separated n len) (hb : Boundary n len i)
    (hi : len i ≠ 0) : Boundary n len (i + len i) := by
  intro j hj hjn hlen
  obtain hlt | rfl | hgt := Nat.lt_trichotomy j i
  · have := hb j hlt hjn hlen
    omega
  · exact Nat.le_refl _
  · have := hs i j hgt hjn hi hlen
    omega

theorem Separated.place (hs : Separated n len) (hb : Boundary n len i)
    (hroom : ∀ j, j < c → len (i + j) = 0) : Separated n (Function.update len i c) := by
  intro a b hab hb' ha hlen
  by_cases hai : a = i
  · subst hai
    rw [Function.update_self] at ha ⊢
    rw [Function.update_of_ne (by omega)] at hlen
    by_contra hlt
    have hzero := hroom (b - a) (by omega)
    rw [show a + (b - a) = b by omega] at hzero
    exact hlen hzero
  · rw [Function.update_of_ne hai] at ha ⊢
    by_cases hbi : b = i
    · subst hbi
      exact hb a hab (by omega) ha
    · rw [Function.update_of_ne hbi] at hlen
      exact hs a b hab hb' ha hlen

theorem Separated.clear (hs : Separated n len) (i : Nat) :
    Separated n (Function.update len i 0) := by
  intro a b hab hb ha hlen
  have hai : a ≠ i := by
    rintro rfl
    exact ha (Function.update_self ..)
  have hbi : b ≠ i := by
    rintro rfl
    exact hlen (Function.update_self ..)
  rw [Function.update_of_ne hai] at ha ⊢
  rw [Function.update_of_ne hbi] at hlen
  exact hs a b hab hb ha hlen

def Vacant (len : Nat → Nat) (i : Nat) : Prop := ∀ j, j ≤ i → j + len j ≤ i

def FirstVacant (n : Nat) (len : Nat → Nat) (i : Nat) : Prop :=
  i < n ∧ Vacant len i ∧ ∀ j, j < i → ¬ Vacant len j

theorem Vacant.eq_zero (h : Vacant len i) : len i = 0 := by
  have := h i (Nat.le_refl i)
  omega

theorem Boundary.vacant (hb : Boundary n len i) (hi : i < n) (h0 : len i = 0) : Vacant len i := by
  intro j hj
  obtain hlt | rfl := Nat.lt_or_eq_of_le hj
  · by_cases hz : len j = 0
    · omega
    · exact hb j hlt (by omega) hz
  · omega

theorem not_vacant_of_reached (hij : i ≤ j) (hj : j < i + len i) : ¬ Vacant len j := by
  intro h
  have := h i hij
  omega

theorem FirstVacant.unique (hi : FirstVacant n len i) (hj : FirstVacant n len j) : i = j := by
  obtain hlt | he | hgt := Nat.lt_trichotomy i j
  · exact absurd hi.2.1 (hj.2.2 i hlt)
  · exact he
  · exact absurd hj.2.1 (hi.2.2 j hgt)

theorem vacant_update (hi : len i = 0) :
    Vacant (Function.update len i c) j ↔ Vacant len j ∧ ¬ (i ≤ j ∧ j < i + c) := by
  constructor
  · intro h
    refine ⟨fun k hk => ?_, fun hin => ?_⟩
    · by_cases hki : k = i
      · subst hki
        omega
      · simpa only [Function.update_of_ne hki] using h k hk
    · have hreach := h i hin.1
      rw [Function.update_self] at hreach
      omega
  · rintro ⟨h, hout⟩ k hk
    by_cases hki : k = i
    · subst hki
      rw [Function.update_self]
      omega
    · rw [Function.update_of_ne hki]
      exact h k hk

end RedstoneOS.Library.Extents
