import Mathlib.Data.List.Range
import Mathlib.Logic.Function.Basic

namespace RedstoneOS.Screen

def videoMemory : Int := 0xB8000
def numberOfCols : Int := 80
def numberOfRows : Int := 25
def attrib : UInt8 := 0x7
def sizeOfScreen : Int := 4096
def blank : UInt8 := 32

structure Store where
  terminal : Fin 3
  address : Int
  deriving DecidableEq

/-- Video memory, the cursors of the three terminals and the registers of the VGA controller.
`stores` is history. -/
structure State where
  memory : Int → UInt8
  screenX : Fin 3 → Int
  screenY : Fin 3 → Int
  vga : Nat → UInt8
  stores : List Store

def pageAddr (t : Fin 3) : Int := videoMemory + 2 * sizeOfScreen * t.val

def cellAddr (t : Fin 3) (i : Int) : Int := pageAddr t + 2 * i

def store (t : Fin 3) (addr : Int) (b : UInt8) (s : State) : State :=
  { s with
    memory := Function.update s.memory addr b
    stores := ⟨t, addr⟩ :: s.stores }

def storeCell (t : Fin 3) (i : Int) (c a : UInt8) (s : State) : State :=
  store t (cellAddr t i + 1) a (store t (cellAddr t i) c s)

def setX (t : Fin 3) (x : Int) (s : State) : State :=
  { s with screenX := Function.update s.screenX t x }

def setY (t : Fin 3) (y : Int) (s : State) : State :=
  { s with screenY := Function.update s.screenY t y }

def outVga (register : Nat) (b : UInt8) (s : State) : State :=
  { s with vga := Function.update s.vga register b }

def updateCursor (row col : Int) (s : State) : State :=
  let position := ((row * numberOfCols + col) % 65536).toNat
  outVga 0x0E (UInt8.ofNat (position / 256 % 256)) (outVga 0x0F (UInt8.ofNat (position % 256)) s)

def showCursor (t : Fin 3) (s : State) : State := updateCursor (s.screenY t) (s.screenX t) s

def cellLoop (t : Fin 3) (c : Int → State → UInt8) (i : Int) : Nat → State → State
  | 0, s => s
  | n + 1, s => cellLoop t c (i + 1) n (storeCell t i (c i s) attrib s)

def clear (t : Fin 3) (s : State) : State :=
  let s := cellLoop t (fun _ _ => blank) 0 (numberOfRows * numberOfCols).toNat s
  updateCursor 0 0 (setY t 0 (setX t 0 s))

def cursorCell (t : Fin 3) (s : State) : Int := numberOfCols * s.screenY t + s.screenX t

/-- The cursor before the cell that a Backspace erases: from the start of a row it goes to the
end of the row above. -/
def stepBack (t : Fin 3) (s : State) : State :=
  if s.screenX t = 0 then setX t (numberOfCols - 1) (setY t (s.screenY t - 1) s)
  else setX t (s.screenX t - 1) s

def backspace (t : Fin 3) (s : State) : State :=
  let s := stepBack t s
  showCursor t (storeCell t (cursorCell t s) blank attrib s)

def keptCells : Int := (numberOfRows - 1) * numberOfCols

/-- The rows move up in place, each cell before the one it is read from. -/
def scrollCells (t : Fin 3) (s : State) : State :=
  let s := cellLoop t (fun i s => s.memory (cellAddr t (i + numberOfCols))) 0 keptCells.toNat s
  cellLoop t (fun _ _ => blank) keptCells numberOfCols.toNat s

def scrollScreen (t : Fin 3) (s : State) : State :=
  let s := scrollCells t s
  setY t (s.screenY t - 1) s

def printNewLine (t : Fin 3) (s : State) : State :=
  let s := setY t (s.screenY t + 1) s
  if s.screenY t = numberOfRows then scrollScreen t s else s

def isNewLine (c : UInt8) : Bool := c = 10 || c = 13

/-- `putc` on one terminal. Its newline moves down as `print_new_line` does. The division is
that of C, towards zero. -/
def putc (t : Fin 3) (c : UInt8) (s : State) : State :=
  if isNewLine c then showCursor t (setX t 0 (printNewLine t s))
  else
    let s := storeCell t (cursorCell t s) c attrib s
    let s := setX t (s.screenX t + 1) s
    let s := if s.screenX t = numberOfCols then printNewLine t s else s
    let s := setX t ((s.screenX t).tmod numberOfCols) s
    let s := setY t ((s.screenY t + (s.screenX t).tdiv numberOfCols).tmod numberOfRows) s
    showCursor t s

section Fields

variable (t u : Fin 3) (i addr x y : Int) (b c a : UInt8) (s : State)

@[simp] theorem store_vga : (store t addr b s).vga = s.vga := rfl
@[simp] theorem storeCell_screenX : (storeCell t i c a s).screenX = s.screenX := rfl
@[simp] theorem storeCell_screenY : (storeCell t i c a s).screenY = s.screenY := rfl
theorem storeCell_memory : (storeCell t i c a s).memory addr =
    if addr = cellAddr t i + 1 then a else if addr = cellAddr t i then c else s.memory addr := by
  simp only [storeCell, store, Function.update_apply]

@[simp] theorem setX_screenX : (setX t x s).screenX = Function.update s.screenX t x := rfl
@[simp] theorem setX_screenY : (setX t x s).screenY = s.screenY := rfl
@[simp] theorem setX_stores : (setX t x s).stores = s.stores := rfl
@[simp] theorem setY_screenX : (setY t y s).screenX = s.screenX := rfl
@[simp] theorem setY_screenY : (setY t y s).screenY = Function.update s.screenY t y := rfl
@[simp] theorem setY_stores : (setY t y s).stores = s.stores := rfl
@[simp] theorem updateCursor_screenX : (updateCursor y x s).screenX = s.screenX := rfl
@[simp] theorem updateCursor_screenY : (updateCursor y x s).screenY = s.screenY := rfl
@[simp] theorem updateCursor_stores : (updateCursor y x s).stores = s.stores := rfl
@[simp] theorem showCursor_screenX : (showCursor t s).screenX = s.screenX := rfl
@[simp] theorem showCursor_screenY : (showCursor t s).screenY = s.screenY := rfl

theorem cellLoop_cursor (f : Int → State → UInt8) (n : Nat) :
    (cellLoop t f i n s).screenX = s.screenX ∧ (cellLoop t f i n s).screenY = s.screenY := by
  induction n generalizing i s with
  | zero => exact ⟨rfl, rfl⟩
  | succ n ih => exact ih (i + 1) (storeCell t i (f i s) attrib s)

attribute [irreducible] cellLoop

@[simp] theorem cellLoop_screenX (f : Int → State → UInt8) (n : Nat) :
    (cellLoop t f i n s).screenX = s.screenX := (cellLoop_cursor t i s f n).1

@[simp] theorem cellLoop_screenY (f : Int → State → UInt8) (n : Nat) :
    (cellLoop t f i n s).screenY = s.screenY := (cellLoop_cursor t i s f n).2

end Fields

variable {s : State} {t : Fin 3} {c : UInt8}

def rowBelow (y : Int) : Int := if y + 1 = numberOfRows then numberOfRows - 1 else y + 1

theorem scrollCells_screenX : (scrollCells t s).screenX = s.screenX :=
  (cellLoop_screenX ..).trans (cellLoop_screenX ..)

theorem scrollCells_screenY : (scrollCells t s).screenY = s.screenY :=
  (cellLoop_screenY ..).trans (cellLoop_screenY ..)

@[simp] theorem scrollScreen_screenX : (scrollScreen t s).screenX = s.screenX := by
  rw [scrollScreen, setY_screenX, scrollCells_screenX]

@[simp] theorem scrollScreen_screenY :
    (scrollScreen t s).screenY = Function.update s.screenY t (s.screenY t - 1) := by
  rw [scrollScreen, setY_screenY, scrollCells_screenY]

theorem rowBelow_bounds {y : Int} (hy : 0 ≤ y) (hy' : y < numberOfRows) :
    0 ≤ rowBelow y ∧ rowBelow y < numberOfRows := by
  have hrows : numberOfRows = 25 := rfl
  unfold rowBelow
  split <;> omega

@[simp] theorem printNewLine_screenX : (printNewLine t s).screenX = s.screenX := by
  simp only [printNewLine]
  split <;> simp

@[simp] theorem printNewLine_screenY :
    (printNewLine t s).screenY = Function.update s.screenY t (rowBelow (s.screenY t)) := by
  simp only [printNewLine, setY_screenY, Function.update_self, rowBelow]
  split
  next h => simp [h]
  next => rfl

theorem putc_newLine_cursor (h : isNewLine c = true) :
    (putc t c s).screenX = Function.update s.screenX t 0 ∧
      (putc t c s).screenY = Function.update s.screenY t (rowBelow (s.screenY t)) := by
  simp [putc, h]

theorem putc_char_cursor (h : isNewLine c = false) (hx : 0 ≤ s.screenX t)
    (hx' : s.screenX t < numberOfCols) (hy : 0 ≤ s.screenY t) (hy' : s.screenY t < numberOfRows) :
    (putc t c s).screenX = Function.update s.screenX t
        (if s.screenX t + 1 = numberOfCols then 0 else s.screenX t + 1) ∧
      (putc t c s).screenY = Function.update s.screenY t
        (if s.screenX t + 1 = numberOfCols then rowBelow (s.screenY t) else s.screenY t) := by
  have hrow : (rowBelow (s.screenY t)).tmod numberOfRows = rowBelow (s.screenY t) :=
    Int.tmod_eq_of_lt (rowBelow_bounds hy hy').1 (rowBelow_bounds hy hy').2
  have hy'' : (s.screenY t).tmod numberOfRows = s.screenY t := Int.tmod_eq_of_lt hy hy'
  by_cases hend : s.screenX t + 1 = numberOfCols
  · simp [putc, h, hend, hrow]
  · have hx'' : (s.screenX t + 1).tmod numberOfCols = s.screenX t + 1 :=
      Int.tmod_eq_of_lt (by omega) (by omega)
    have hdiv : (s.screenX t + 1).tdiv numberOfCols = 0 :=
      Int.tdiv_eq_zero_of_lt (by omega) (by omega)
    simp [putc, h, hend, hx'', hdiv, hy'']

end RedstoneOS.Screen
