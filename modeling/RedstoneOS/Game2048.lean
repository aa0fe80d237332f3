import RedstoneOS.Library.LineSweep
import Mathlib.Data.List.Range

namespace RedstoneOS.Game2048

open Library.LineSweep

def empty : Int := -1

structure Game where
  rows : Nat
  cols : Nat
  score : Int
  cells : Nat → Int

/-- The position in `cells`, and `none` for the null pointer. -/
def getCell (rows cols : Nat) (row col : Int) : Option Nat :=
  if row < 0 ∨ rows ≤ row ∨ col < 0 ∨ cols ≤ col then none else some (row * cols + col).toNat

/-- What the loops dereference. They stay on the board, where the pointer is not null. -/
def cellAt (rows cols row col : Nat) : Nat := (getCell rows cols row col).getD 0

@[ext] structure Tally where
  score : Int
  moved : Bool
  deriving DecidableEq

abbrev Turn := State Int Tally

def setMoved (t : Tally) : Tally := { t with moved := true }

def slideCell (near far : Nat) (s : Turn) : Turn :=
  if s.cells near = empty ∧ s.cells far ≠ empty then
    ⟨Function.update (Function.update s.cells near (s.cells far)) far empty, setMoved s.acc⟩
  else s

/-- The body of the slides of `move_a` and `move_d`, which exchange the two cells. -/
def swapCell (near far : Nat) (s : Turn) : Turn :=
  if s.cells near = empty ∧ s.cells far ≠ empty then
    let temp := s.cells near
    ⟨Function.update (Function.update s.cells near (s.cells far)) far temp, setMoved s.acc⟩
  else s

/-- Of the two equal cells, `tested` is the one that is compared with the empty cell and
doubled. -/
def mergeCell (tested near far : Nat) (s : Turn) : Turn :=
  if s.cells near = s.cells far ∧ s.cells tested ≠ empty then
    let doubled := s.cells tested * 2
    ⟨Function.update (Function.update s.cells near doubled) far empty,
      ⟨s.acc.score + doubled, true⟩⟩
  else s

def slideLines (lines length : Nat) (cell : Nat → Nat → Turn → Turn) (near far : Nat → Nat → Nat) :
    Turn → Turn :=
  forUp lines fun l => forUp (length - 1) fun _ => forUp (length - 1) fun k =>
    cell (near l k) (far l k)

def mergeLines (lines length : Nat) (order : Nat → (Nat → Turn → Turn) → Turn → Turn)
    (tested near far : Nat → Nat → Nat) : Turn → Turn :=
  forUp lines fun l => order (length - 1) fun k => mergeCell (tested l k) (near l k) (far l k)

/-- What the four moves share. The second slide is made with the flag set and keeps it so. -/
def moveLines (lines length : Nat) (cell : Nat → Nat → Turn → Turn)
    (order : Nat → (Nat → Turn → Turn) → Turn → Turn) (tested near far : Nat → Nat → Nat)
    (g : Game) : Int × Game :=
  let slide := slideLines lines length cell near far
  let s := mergeLines lines length order tested near far (slide ⟨g.cells, g.score, false⟩)
  let s := if s.acc.moved then slide s else s
  (if s.acc.moved then 1 else 0, { g with score := s.acc.score, cells := s.cells })

def moveW (g : Game) : Int × Game :=
  let here c r := cellAt g.rows g.cols r c
  let below c r := cellAt g.rows g.cols (r + 1) c
  moveLines g.cols g.rows slideCell forUp here here below g

def moveS (g : Game) : Int × Game :=
  let here c r := cellAt g.rows g.cols r c
  let below c r := cellAt g.rows g.cols (r + 1) c
  moveLines g.cols g.rows slideCell forDown here below here g

def moveA (g : Game) : Int × Game :=
  let here r c := cellAt g.rows g.cols r c
  let right r c := cellAt g.rows g.cols r (c + 1)
  moveLines g.rows g.cols swapCell forUp here here right g

def moveD (g : Game) : Int × Game :=
  let here r c := cellAt g.rows g.cols r c
  let right r c := cellAt g.rows g.cols r (c + 1)
  moveLines g.rows g.cols swapCell forDown right right here g

def legalMoveCheck (g : Game) : Int :=
  let at' r c := g.cells (cellAt g.rows g.cols r c)
  if (List.range (g.rows * g.cols)).any (fun i => g.cells i = empty) then 1
  else if (List.range g.cols).any (fun c =>
      (List.range (g.rows - 1)).any fun r => at' r c = at' (r + 1) c) then 1
  else if (List.range g.rows).any (fun r =>
      (List.range (g.cols - 1)).any fun c => at' r c = at' r (c + 1)) then 1
  else 0

end RedstoneOS.Game2048
