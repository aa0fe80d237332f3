import RedstoneOS.Library.ByteMemory

namespace RedstoneOS.Library.AddressSpace

open ByteMemory

variable {β ι : Type*} (t : Nat → Option Nat)

/-- Memory as it is seen through a translation. An address that is not mapped reads as `d`. -/
def view (d : β) (m : Memory β) : Memory β := fun va => ((t va).map m).getD d

def store (va : Nat) (v : β) (m : Memory β) : Memory β :=
  match t va with
  | none => m
  | some pa => Function.update m pa v

def storeAll (w : Memory β) : (a n : Nat) → Memory β → Memory β
  | _, 0, m => m
  | a, n + 1, m => storeAll w (a + 1) n (store t a (w a) m)

def MapsTo (lo hi base : Nat) : Prop := ∀ va, lo ≤ va → va < hi → t va = some (base + (va - lo))

variable {t} {lo hi base : Nat} {m : Memory β}

theorem MapsTo.view_eq (h : MapsTo t lo hi base) (d : β) (m : Memory β) {va : Nat} (hlo : lo ≤ va)
    (hhi : va < hi) : view t d m va = m (base + (va - lo)) := by
  rw [view, h va hlo hhi, Option.map_some, Option.getD_some]

theorem MapsTo.store_eq (h : MapsTo t lo hi base) (v : β) (m : Memory β) {va : Nat} (hlo : lo ≤ va)
    (hhi : va < hi) : store t va v m = fill m (base + (va - lo)) (fun _ => v) 1 := by
  rw [store, h va hlo hhi, fill_one]

theorem MapsTo.storeAll_eq (h : MapsTo t lo hi base) (w m : Memory β) {a n : Nat} (hlo : lo ≤ a)
    (hhi : a + n ≤ hi) : storeAll t w a n m = fill m (base + (a - lo)) (fun i => w (a + i)) n := by
  induction n generalizing a m with
  | zero => rw [storeAll, fill_zero]
  | succ n ih =>
    have hnext : base + (a + 1 - lo) = base + (a - lo) + 1 := by omega
    rw [storeAll, ih _ (by omega) (by omega), h.store_eq _ _ hlo (by omega), fill_one, hnext,
      fill_succ, Nat.add_zero]
    apply fill_congr
    intro i _
    rw [Nat.add_assoc, Nat.add_comm 1]

/-- Code that runs on the view of a memory and fills a buffer there fills the place of the buffer in
the memory. -/
theorem MapsTo.storeAll_fill (h : MapsTo t lo hi base) (d : β) (f : Nat → β) {a n c : Nat}
    (hlo : lo ≤ a) (hhi : a + n ≤ hi) (hc : c ≤ n) :
    storeAll t (fill (view t d m) a f c) a n m = fill m (base + (a - lo)) f c := by
  rw [h.storeAll_eq _ _ hlo hhi]
  funext x
  by_cases hx : base + (a - lo) ≤ x ∧ x < base + (a - lo) + n
  · obtain ⟨i, rfl⟩ := Nat.exists_eq_add_of_le hx.1
    rw [fill_inside _ _ _ (by omega)]
    by_cases hi : i < c
    · rw [fill_inside _ _ _ hi, fill_inside _ _ _ hi]
    · rw [fill_outside _ _ _ (by omega), fill_outside _ _ _ (by omega),
        h.view_eq d m (by omega) (by omega)]
      exact congrArg m (by omega)
  · rw [fill_outside _ _ _ (by omega), fill_outside _ _ _ (by omega)]

def Separate (S : ι → Prop) (frame : ι → Nat) (size : Nat) : Prop :=
  ∀ i j, S i → S j → i ≠ j → frame i + size ≤ frame j ∨ frame j + size ≤ frame i

/-- The memory holds the ranges `[lo, hi)` of many memories, each in a frame of its own. -/
def Holds (S : ι → Prop) (frame : ι → Nat) (lo hi : Nat) (m : Memory β) (own : ι → Memory β) :
    Prop :=
  ∀ i, S i → ∀ va, lo ≤ va → va < hi → m (frame i + (va - lo)) = own i va

variable {S : ι → Prop} {frame : ι → Nat} {own : ι → Memory β}

theorem Holds.outside {m' : Memory β} (h : Holds S frame lo hi m own)
    (hm : ∀ i, S i → AgreeOn (frame i) (frame i + (hi - lo)) m' m) : Holds S frame lo hi m' own :=
  fun i hi va hlo hhi => (hm i hi _ (by omega) (by omega)).trans (h i hi va hlo hhi)

/-- What is written to one frame is seen in its memory and in no other. -/
theorem Holds.fill [DecidableEq ι] (hframes : Separate S frame (hi - lo))
    (h : Holds S frame lo hi m own) {i : ι} (hi' : S i) (f : Nat → β) {a n : Nat} (hlo : lo ≤ a)
    (hhi : a + n ≤ hi) : Holds S frame lo hi (ByteMemory.fill m (frame i + (a - lo)) f n)
      (Function.update own i (ByteMemory.fill (own i) a f n)) := by
  intro j hj va hva hva'
  by_cases hji : j = i
  · subst hji
    rw [Function.update_self]
    by_cases hin : a ≤ va ∧ va < a + n
    · obtain ⟨k, rfl⟩ := Nat.exists_eq_add_of_le hin.1
      have hplace : frame j + (a + k - lo) = frame j + (a - lo) + k := by omega
      rw [hplace, fill_inside _ _ _ (by omega), fill_inside _ _ _ (by omega)]
    · rw [fill_outside _ _ _ (by omega), fill_outside _ _ _ (by omega)]
      exact h j hj va hva hva'
  · have hapart := hframes i j hi' hj (Ne.symm hji)
    rw [Function.update_of_ne hji, fill_outside _ _ _ (by omega)]
    exact h j hj va hva hva'

end RedstoneOS.Library.AddressSpace
