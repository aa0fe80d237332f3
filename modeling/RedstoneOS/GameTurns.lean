import RedstoneOS.BoardMoves

namespace RedstoneOS.GameTurns

open Game2048 BoardMoves

def randomNumbers : List Nat := [199, 123, 213, 333, 4123, 3213, 3332, 978, 404, 243]

def randomNumber (indexRandom : Nat) : Nat := randomNumbers.getD indexRandom 0

/-- The global `index_random` and the game, with a count of the tiles placed so far. -/
structure Play where
  indexRandom : Nat
  game : Game
  placed : Nat

/-- The board that `make_game` fills in, over what its memory held before. -/
def newGame (rows cols : Nat) (memory : Nat → Int) : Game where
  rows := rows
  cols := cols
  score := 0
  cells i := if i < rows * cols then empty else memory i

def randomCell (g : Game) (indexRandom : Nat) : Nat :=
  let ind := randomNumber indexRandom % (g.rows * g.cols)
  cellAt g.rows g.cols (ind / g.cols) (ind % g.cols)

def tileSearch (g : Game) : Nat → Nat → Option Nat
  | 0, _ => none
  | fuel + 1, indexRandom =>
    let indexRandom := (indexRandom + 1) % 10
    if g.cells (randomCell g indexRandom) ≠ empty then tileSearch g fuel indexRandom
    else some indexRandom

def newTile (indexRandom : Nat) : Int := if randomNumber indexRandom % 20 ≤ 1 then 4 else 2

/-- `none` when no entry of the table picks an empty cell: the loop never ends. -/
def randNewTile (p : Play) : Option Play :=
  (tileSearch p.game 10 p.indexRandom).map fun indexRandom =>
    { indexRandom := indexRandom
      game := { p.game with
        cells := Function.update p.game.cells (randomCell p.game indexRandom) (newTile indexRandom) }
      placed := p.placed + 1 }

def moveKey (inputChar : UInt8) (g : Game) : Int × Game :=
  if inputChar = 119 then moveW g
  else if inputChar = 97 then moveA g
  else if inputChar = 115 then moveS g
  else if inputChar = 100 then moveD g
  else (0, g)

def quitKey : UInt8 := 113

/-- The return value and the game after a turn, before the blocks of an ended game are freed. -/
def processTurn (inputChar : UInt8) (p : Play) : Option (Int × Play) :=
  if inputChar = quitKey then some (0, p)
  else
    let moved := moveKey inputChar p.game
    let p := { p with game := moved.2 }
    (if moved.1 = 1 then randNewTile p else some p).map fun p =>
      (if legalMoveCheck p.game = 0 then 0 else 1, p)

def startGame (rows cols : Nat) (memory : Nat → Int) (indexRandom : Nat) : Option Play :=
  randNewTile ⟨indexRandom, newGame rows cols memory, 0⟩

def playTurns (p : Play) (inputs : List UInt8) : Option Play :=
  inputs.foldlM (fun p c => (processTurn c p).map Prod.snd) p

variable {g : Game} {p p' : Play} {c : UInt8} {v : Int} {fuel i j : Nat}

/-- The entries that a search has tried and the one that it takes. -/
theorem tileSearch_eq_some :
    tileSearch g fuel i = some j ↔ ∃ k, k < fuel ∧ j = (i + k + 1) % 10 ∧
      g.cells (randomCell g j) = empty ∧
      ∀ k', k' < k → g.cells (randomCell g ((i + k' + 1) % 10)) ≠ empty := by
  induction fuel generalizing i with
  | zero => simp [tileSearch]
  | succ fuel ih =>
    have hstep : ∀ k, ((i + 1) % 10 + k + 1) % 10 = (i + (k + 1) + 1) % 10 := by omega
    rw [tileSearch]
    by_cases hhole : g.cells (randomCell g ((i + 1) % 10)) = empty
    · rw [if_neg (not_not.mpr hhole), Option.some.injEq]
      constructor
      · rintro rfl
        exact ⟨0, Nat.succ_pos fuel, rfl, hhole, fun k' hk' => absurd hk' (Nat.not_lt_zero k')⟩
      · rintro ⟨k, -, rfl, -, hbefore⟩
        cases k with
        | zero => rfl
        | succ k => exact absurd hhole (hbefore 0 (Nat.succ_pos k))
    · rw [if_pos hhole, ih]
      constructor
      · rintro ⟨k, hk, rfl, hcell, hbefore⟩
        refine ⟨k + 1, by omega, hstep k, hcell, fun k' hk' => ?_⟩
        cases k' with
        | zero => exact hhole
        | succ k' =>
          rw [← hstep]
          exact hbefore k' (by omega)
      · rintro ⟨k, hk, rfl, hcell, hbefore⟩
        cases k with
        | zero => exact absurd hcell hhole
        | succ k =>
          refine ⟨k, by omega, (hstep k).symm, hcell, fun k' hk' => ?_⟩
          rw [hstep]
          exact hbefore (k' + 1) (by omega)

theorem tileSearch_within (h : tileSearch g fuel i = some j) : tileSearch g 10 i = some j := by
  obtain ⟨k, -, hj, hcell, hbefore⟩ := tileSearch_eq_some.mp h
  refine tileSearch_eq_some.mpr ⟨k, ?_, hj, hcell, hbefore⟩
  by_contra hk
  refine hbefore (k - 10) (by omega) ?_
  rw [show (i + (k - 10) + 1) % 10 = j by omega]
  exact hcell

theorem moveKey_cases (c : UInt8) (g : Game) :
    (∃ dir, moveKey c g = move dir g) ∨ moveKey c g = (0, g) := by
  unfold moveKey
  split
  · exact Or.inl ⟨.w, rfl⟩
  · split
    · exact Or.inl ⟨.a, rfl⟩
    · split
      · exact Or.inl ⟨.s, rfl⟩
      · split
        · exact Or.inl ⟨.d, rfl⟩
        · exact Or.inr rfl

/-- What a turn can do to the game: nothing, or a move, after which there may be a new tile. -/
theorem processTurn_game (h : processTurn c p = some (v, p')) :
    p' = p ∨ ∃ dir, p' = { p with game := (move dir p.game).2 } ∨
      randNewTile { p with game := (move dir p.game).2 } = some p' := by
  unfold processTurn at h
  split at h
  · simp only [Option.some.injEq, Prod.mk.injEq] at h
    exact Or.inl h.2.symm
  · obtain ⟨q, hq, he⟩ := Option.map_eq_some_iff.mp h
    simp only [Prod.mk.injEq] at he
    obtain ⟨-, rfl⟩ := he
    obtain ⟨dir, hmove⟩ | hmove := moveKey_cases c p.game
    · refine Or.inr ⟨dir, ?_⟩
      rw [hmove] at hq
      split at hq
      · exact Or.inr hq
      · exact Or.inl (Option.some.inj hq).symm
    · rw [hmove] at hq
      exact Or.inl (Option.some.inj hq).symm

end RedstoneOS.GameTurns
