import RedstoneOS.GameScore
import RedstoneOS.LegalMoves

namespace RedstoneOS.TilePlacement

open Game2048 Merging MoveLines BoardMoves LegalMoves GameTurns GameScore

/-- Some number of the table picks an empty cell: its remainder is the index of the cell. -/
def DrawsHole (g : Game) : Prop :=
  ∃ n, n ∈ randomNumbers ∧ g.cells (n % (g.rows * g.cols)) = empty

/-- The loop of `rand_new_tile` ends, and one cell that was empty has got a tile. -/
structure PlacesTile (p : Play) : Prop where
  ends : ∃ fuel, (tileSearch p.game fuel p.indexRandom).isSome
  one : ∃ p' i v, randNewTile p = some p' ∧ i < p.game.rows * p.game.cols ∧
    p.game.cells i = empty ∧ (v = 2 ∨ v = 4) ∧
      p'.game = { p.game with cells := Function.update p.game.cells i v }

variable {g : Game} {p : Play} {dir : Direction} {c : UInt8} {i j : Nat} {l : List Int}

theorem randomCell_eq (hpos : 0 < g.rows * g.cols) (j : Nat) :
    randomCell g j = randomNumber j % (g.rows * g.cols) := by
  obtain ⟨hrow, hcol⟩ := index_lines (Nat.mod_lt (randomNumber j) hpos)
  rw [randomCell, cellAt_eq hrow hcol, Nat.div_add_mod']

theorem drawsHole_iff (hpos : 0 < g.rows * g.cols) :
    DrawsHole g ↔ ∃ j, j < 10 ∧ g.cells (randomCell g j) = empty := by
  constructor
  · rintro ⟨n, hn, hcell⟩
    obtain ⟨j, hj, rfl⟩ := List.mem_iff_getElem.mp hn
    refine ⟨j, hj, ?_⟩
    rw [randomCell_eq hpos, randomNumber, List.getD_eq_getElem _ _ hj]
    exact hcell
  · rintro ⟨j, hj, hcell⟩
    have hj' : j < randomNumbers.length := hj
    refine ⟨randomNumber j, ?_, ?_⟩
    · rw [randomNumber, List.getD_eq_getElem _ _ hj']
      exact List.getElem_mem hj'
    · rw [← randomCell_eq hpos]
      exact hcell

/-- The search goes round the table, so that it meets every entry. -/
theorem tileSearch_ends_iff : (tileSearch g 10 i).isSome ↔
    ∃ j, j < 10 ∧ g.cells (randomCell g j) = empty := by
  constructor
  · intro h
    obtain ⟨j, hj⟩ := Option.isSome_iff_exists.mp h
    obtain ⟨k, -, rfl, hcell, -⟩ := tileSearch_eq_some.mp hj
    exact ⟨_, Nat.mod_lt _ (by decide), hcell⟩
  · rintro ⟨j, hj, hcell⟩
    have hround : ∃ k, g.cells (randomCell g ((i + k + 1) % 10)) = empty := by
      refine ⟨(j + 9 - i % 10) % 10, ?_⟩
      have hindex : (i + (j + 9 - i % 10) % 10 + 1) % 10 = j := by omega
      rw [hindex]
      exact hcell
    have hfirst := Nat.find_spec hround
    have hbefore : ∀ k, k < Nat.find hround →
        g.cells (randomCell g ((i + k + 1) % 10)) ≠ empty := fun k hk => Nat.find_min hround hk
    have hsearch : tileSearch g (Nat.find hround + 1) i = some ((i + Nat.find hround + 1) % 10) :=
      tileSearch_eq_some.mpr ⟨Nat.find hround, Nat.lt_succ_self _, rfl, hfirst, hbefore⟩
    rw [tileSearch_within hsearch]
    rfl

theorem randNewTile_isSome (p : Play) :
    (randNewTile p).isSome = (tileSearch p.game 10 p.indexRandom).isSome := by
  rw [randNewTile, Option.isSome_map]

theorem placesTile_iff (hpos : 0 < p.game.rows * p.game.cols) :
    PlacesTile p ↔ DrawsHole p.game := by
  rw [drawsHole_iff hpos, ← tileSearch_ends_iff (i := p.indexRandom)]
  constructor
  · intro h
    obtain ⟨fuel, hfuel⟩ := h.ends
    obtain ⟨j, hj⟩ := Option.isSome_iff_exists.mp hfuel
    rw [tileSearch_within hj]
    rfl
  · intro h
    obtain ⟨j, hj⟩ := Option.isSome_iff_exists.mp h
    obtain ⟨k, -, hk, hcell, -⟩ := tileSearch_eq_some.mp hj
    have hplay : randNewTile p = some ⟨j, { p.game with
        cells := Function.update p.game.cells (randomCell p.game j) (newTile j) }, p.placed + 1⟩ := by
      rw [randNewTile, hj, Option.map_some]
    rw [newTile_eq (show j < 10 by omega)] at hplay
    exact ⟨⟨10, h⟩, _, _, 2, hplay, randomCell_lt hpos j, hcell, Or.inl rfl, rfl⟩

theorem merge_eq_of_length (h : (merge l).length = l.length) : merge l = l := by
  induction l using merge.induct with
  | case1 x l ih =>
    have hle := merge_length_le l
    simp only [merge, if_true, List.length_cons] at h
    omega
  | case2 x y l hxy ih =>
    rw [merge_next hxy] at h ⊢
    rw [ih (Nat.succ_inj.mp h)]
  | case3 l hl =>
    rw [merge]
    exact hl

theorem moveLine_full (h : ∀ x, x ∈ moveLine l → x ≠ -1) : moveLine l = l := by
  have hle := merge_length_le (tiles l)
  have htiles : (tiles l).length ≤ l.length := List.length_filter_le _ l
  have hnone : l.length - (merge (tiles l)).length = 0 := by
    by_contra hpos
    refine h (-1) (List.mem_append_right _ (List.mem_replicate.mpr ⟨hpos, rfl⟩)) rfl
  have hall : tiles l = l := List.filter_eq_self.mpr fun x hx =>
    List.length_filter_eq_length_iff.mp (show (tiles l).length = l.length by omega) x hx
  rw [moveLine, hnone, List.replicate_zero, List.append_nil, merge_eq_of_length (by omega), hall]

theorem hasHole_move (h : (move dir g).1 = 1) : HasHole (move dir g).2 := by
  obtain ⟨l, hl, hmoved⟩ := move_returns_iff.mp h
  by_contra hfull
  have hinside : l < lineCount dir (move dir g).2 := by
    rw [lineCount_move]
    exact hl
  have hline := line_tiles hfull hinside
  rw [line_move dir g hl] at hline
  exact hmoved (moveLine_full hline)

theorem size_pos (h : HasHole g) : 0 < g.rows * g.cols := by
  obtain ⟨i, hi, -⟩ := h
  omega

theorem hasHole_moveKey (h : (moveKey c g).1 = 1) : HasHole (moveKey c g).2 := by
  obtain ⟨dir, hmove⟩ | hmove := moveKey_cases c g
  · rw [hmove] at h ⊢
    exact hasHole_move h
  · rw [hmove] at h
    exact absurd h (by simp)

theorem processTurn_isSome (h : (moveKey c p.game).1 = 1) :
    (processTurn c p).isSome = (randNewTile { p with game := (moveKey c p.game).2 }).isSome := by
  have hkey : c ≠ quitKey := by
    rintro rfl
    have hstay : moveKey quitKey p.game = (0, p.game) := rfl
    rw [hstay] at h
    exact absurd h (by simp)
  rw [processTurn, if_neg hkey]
  simp only [Option.isSome_map, if_pos h]

/-- Where there is an empty cell, a tile is placed exactly if the table picks an empty cell. After
a move there is one, so that a turn ends exactly if the table picks one on the moved board. -/
theorem tile_placement (p : Play) :
    (HasHole p.game → (PlacesTile p ↔ DrawsHole p.game)) ∧
    ∀ c, (moveKey c p.game).1 = 1 → HasHole (moveKey c p.game).2 ∧
      ((processTurn c p).isSome ↔ DrawsHole (moveKey c p.game).2) := by
  refine ⟨fun hhole => placesTile_iff (size_pos hhole), fun c hmove => ?_⟩
  have hhole := hasHole_moveKey hmove
  refine ⟨hhole, ?_⟩
  rw [processTurn_isSome hmove, randNewTile_isSome, drawsHole_iff (size_pos hhole)]
  exact tileSearch_ends_iff

theorem drawsHole_small (hsize : g.rows * g.cols ≤ 4) (hhole : HasHole g) : DrawsHole g := by
  have hall : ∀ size, size ≤ 4 → ∀ i, i < size → ∃ n, n ∈ randomNumbers ∧ n % size = i := by
    decide
  obtain ⟨i, hi, hcell⟩ := hhole
  obtain ⟨n, hn, rfl⟩ := hall _ hsize i hi
  exact ⟨n, hn, hcell⟩

def boardOf (row : List Int) : Game :=
  ⟨4, 4, 0, fun i => (row ++ [16, 32, 16, 32, 32, 16, 32, 16, 16, 32, 16, 32]).getD i 0⟩

/-- The key d moves the fours together, away from the empty cell. -/
theorem tile_placement_fours :
    HasHole (boardOf [-1, 4, 4, 8]) ∧ (moveKey 100 (boardOf [-1, 4, 4, 8])).1 = 1 ∧
      (PlacesTile ⟨0, boardOf [-1, 4, 4, 8], 0⟩ ↔ DrawsHole (boardOf [-1, 4, 4, 8])) ∧
      HasHole (moveKey 100 (boardOf [-1, 4, 4, 8])).2 ∧
      ((processTurn 100 ⟨0, boardOf [-1, 4, 4, 8], 0⟩).isSome ↔
        DrawsHole (moveKey 100 (boardOf [-1, 4, 4, 8])).2) := by
  have hhole : HasHole (boardOf [-1, 4, 4, 8]) := ⟨0, by decide, by decide⟩
  have hmove : (moveKey 100 (boardOf [-1, 4, 4, 8])).1 = 1 := by decide +kernel
  obtain ⟨hplaces, hturn⟩ := tile_placement ⟨0, boardOf [-1, 4, 4, 8], 0⟩
  exact ⟨hhole, hmove, hplaces hhole, hturn 100 hmove⟩

/-- On a board of sixteen cells the table never picks the first. The key d empties it, and the
turn does not end. -/
theorem first_cell_is_never_picked :
    (HasHole (boardOf [-1, 4, 4, 8]) ∧ ¬ PlacesTile ⟨0, boardOf [-1, 4, 4, 8], 0⟩) ∧
      (moveKey 100 (boardOf [2, 2, 4, 8])).1 = 1 ∧
        (processTurn 100 ⟨0, boardOf [2, 2, 4, 8], 0⟩).isSome = false := by
  refine ⟨⟨⟨0, by decide, by decide⟩, fun h => ?_⟩, by decide +kernel, by decide +kernel⟩
  have hdraws := (placesTile_iff (p := ⟨0, boardOf [-1, 4, 4, 8], 0⟩) (by decide)).mp h
  exact absurd hdraws (by unfold DrawsHole; decide +kernel)

end RedstoneOS.TilePlacement
