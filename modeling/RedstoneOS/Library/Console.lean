import Mathlib.Logic.Function.Basic

namespace RedstoneOS.Library.Console

variable {β : Type*}

/-- A text of rows without end, a cursor, and the first row that is shown. -/
structure Text (β : Type*) where
  rows : Nat → Nat → β
  row : Nat
  col : Nat
  top : Nat

def window (c : Text β) (r k : Nat) : β := c.rows (c.top + r) k

def ofPage (height : Nat) (blank : β) (page : Nat → Nat → β) (row col : Nat) : Text β :=
  ⟨fun r k => if r < height then page r k else blank, row, col, 0⟩

/-- The start of the next row. The window follows no further than it has to. -/
def newRow (height : Nat) (c : Text β) : Text β :=
  { c with row := c.row + 1, col := 0, top := if c.row + 1 < c.top + height then c.top else c.row + 2 - height }

def put (b : β) (c : Text β) : Text β :=
  { c with rows := Function.update c.rows c.row (Function.update (c.rows c.row) c.col b) }

def write (width height : Nat) (newLine : β → Bool) (c : Text β) (b : β) : Text β :=
  if newLine b then newRow height c
  else
    let c := put b c
    if c.col + 1 = width then newRow height c else { c with col := c.col + 1 }

structure Fits (width height : Nat) (blank : β) (c : Text β) : Prop where
  col : c.col < width
  top : c.top ≤ c.row
  row : c.row < c.top + height
  below : ∀ r k, c.top + height ≤ r → c.rows r k = blank

def scrolled (height : Nat) (blank : β) (page : Nat → Nat → β) (r k : Nat) : β :=
  if r + 1 < height then page (r + 1) k else blank

variable {width height : Nat} {blank : β} {c : Text β} {r k : Nat}

theorem fits_ofPage (page : Nat → Nat → β) {row col : Nat} (hrow : row < height)
    (hcol : col < width) : Fits width height blank (ofPage height blank page row col) where
  col := hcol
  top := Nat.zero_le _
  row := by
    simp only [ofPage, Nat.zero_add]
    exact hrow
  below r k hr := by
    simp only [ofPage, Nat.zero_add] at hr ⊢
    exact if_neg (Nat.not_lt.mpr hr)

theorem window_ofPage (page : Nat → Nat → β) (row col : Nat) (hr : r < height) :
    window (ofPage height blank page row col) r k = page r k := by
  simp only [window, ofPage, Nat.zero_add, if_pos hr]

theorem top_newRow (h : Fits width height blank c) : (newRow height c).top =
    if c.row + 1 = c.top + height then c.top + 1 else c.top := by
  have htop := h.top
  have hrow := h.row
  simp only [newRow]
  split <;> split <;> omega

theorem fits_newRow (h : Fits width height blank c) (hwidth : 0 < width) :
    Fits width height blank (newRow height c) := by
  have htop := h.top
  have hrow := h.row
  have hnext := top_newRow h
  have hrows : (newRow height c).row = c.row + 1 := rfl
  refine ⟨hwidth, ?_, ?_, fun r k hr => h.below r k ?_⟩
  · split at hnext <;> omega
  · split at hnext <;> omega
  · split at hnext <;> omega

theorem window_newRow (h : Fits width height blank c) (hr : r < height) :
    window (newRow height c) r k = if c.row + 1 = c.top + height
      then scrolled height blank (window c) r k else window c r k := by
  have hnext := top_newRow h
  rw [window, hnext]
  split
  · rw [scrolled]
    split
    · rw [window, Nat.add_assoc, Nat.add_comm 1 r]
      rfl
    next hlast =>
      have hbelow : c.top + height ≤ c.top + 1 + r := by omega
      exact h.below _ _ hbelow
  · rfl

theorem fits_put (h : Fits width height blank c) (b : β) : Fits width height blank (put b c) where
  col := h.col
  top := h.top
  row := h.row
  below r k hr := by
    have hrow := h.row
    have hne : r ≠ c.row := by
      simp only [put] at hr
      omega
    simp only [put, Function.update_of_ne hne]
    exact h.below r k hr

theorem window_put (h : Fits width height blank c) (b : β) : window (put b c) r k =
    if r = c.row - c.top ∧ k = c.col then b else window c r k := by
  have htop := h.top
  simp only [window, put]
  by_cases hr : r = c.row - c.top
  · have hrow : c.top + r = c.row := by omega
    rw [hrow, Function.update_self]
    by_cases hk : k = c.col
    · rw [if_pos ⟨hr, hk⟩, hk, Function.update_self]
    · rw [if_neg fun h => hk h.2, Function.update_of_ne hk]
  · have hrow : c.top + r ≠ c.row := by omega
    rw [if_neg fun h => hr h.1, Function.update_of_ne hrow]

theorem fits_write (h : Fits width height blank c) (hwidth : 0 < width)
    (newLine : β → Bool) (b : β) : Fits width height blank (write width height newLine c b) := by
  have hput := fits_put h b
  have hcol := h.col
  rw [write]
  split
  · exact fits_newRow h hwidth
  · dsimp only
    split
    · exact fits_newRow hput hwidth
    next hend =>
      have hcol' : (put b c).col = c.col := rfl
      exact ⟨by simp only; omega, hput.top, hput.row, hput.below⟩

end RedstoneOS.Library.Console
