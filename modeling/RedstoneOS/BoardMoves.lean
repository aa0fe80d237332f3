import RedstoneOS.MoveLines

namespace RedstoneOS.BoardMoves

open Game2048 Merging MoveLines Library.LineSweep Library.Packing

variable {rows cols r c r' c' i l k : Nat} {g g' : Game}

inductive Direction
  | w
  | s
  | a
  | d
  deriving DecidableEq

def move : Direction → Game → Int × Game
  | .w => moveW
  | .s => moveS
  | .a => moveA
  | .d => moveD

def lineCount : Direction → Game → Nat
  | .w, g => g.cols
  | .s, g => g.cols
  | .a, g => g.rows
  | .d, g => g.rows

def lineLength : Direction → Game → Nat
  | .w, g => g.rows
  | .s, g => g.rows
  | .a, g => g.cols
  | .d, g => g.cols

/-- The position of a cell of a line, counted from the wall that the tiles move to. -/
def cellOf (rows cols : Nat) : Direction → Nat → Nat → Nat
  | .w, l, k => k * cols + l
  | .s, l, k => (rows - 1 - k) * cols + l
  | .a, l, k => l * cols + k
  | .d, l, k => l * cols + (cols - 1 - k)

def line (dir : Direction) (g : Game) : Nat → List Int :=
  lineOf (cellOf g.rows g.cols dir) (lineLength dir g) g

def lineAt (g : Game) : Direction → Nat → Nat
  | .w, i => i % g.cols
  | .s, i => i % g.cols
  | .a, i => i / g.cols
  | .d, i => i / g.cols

def placeAt (g : Game) : Direction → Nat → Nat
  | .w, i => i / g.cols
  | .s, i => g.rows - 1 - i / g.cols
  | .a, i => i % g.cols
  | .d, i => g.cols - 1 - i % g.cols

/-- The move of the rules: every line is merged from its wall on. -/
def reference (dir : Direction) (g : Game) : Int × Game :=
  let cells i := if i < g.rows * g.cols
    then (moveLine (line dir g (lineAt g dir i))).getD (placeAt g dir i) empty else g.cells i
  let score := ((List.range (lineCount dir g)).map fun l => gained (tiles (line dir g l))).sum
  (if ∃ i, i < g.rows * g.cols ∧ cells i ≠ g.cells i then 1 else 0,
    { g with score := g.score + score, cells := cells })

theorem cellAt_eq (hr : r < rows) (hc : c < cols) : cellAt rows cols r c = r * cols + c := by
  have hinside : ¬ ((r : Int) < 0 ∨ (rows : Int) ≤ r ∨ (c : Int) < 0 ∨ (cols : Int) ≤ c) := by
    omega
  rw [cellAt, getCell, if_neg hinside]
  exact_mod_cast rfl

theorem index_div (hc : c < cols) : (r * cols + c) / cols = r := by
  have hpos : 0 < cols := by omega
  rw [Nat.mul_comm, Nat.mul_add_div hpos, Nat.div_eq_of_lt hc, Nat.add_zero]

theorem index_mod (hc : c < cols) : (r * cols + c) % cols = c := by
  rw [Nat.mul_comm, Nat.mul_add_mod, Nat.mod_eq_of_lt hc]

theorem index_inj (hc : c < cols) (hc' : c' < cols) (h : r * cols + c = r' * cols + c') :
    r = r' ∧ c = c' := by
  have hr : r = r' := by rw [← index_div (r := r) hc, h, index_div hc']
  subst hr
  omega

theorem index_lt (hr : r < rows) (hc : c < cols) : r * cols + c < rows * cols := by
  have hle : (r + 1) * cols ≤ rows * cols := Nat.mul_le_mul_right cols hr
  rw [Nat.succ_mul] at hle
  omega

theorem index_lines (hi : i < rows * cols) : i / cols < rows ∧ i % cols < cols := by
  have hpos : 0 < cols := Nat.pos_of_ne_zero fun h => by simp [h] at hi
  exact ⟨(Nat.div_lt_iff_lt_mul hpos).mpr hi, Nat.mod_lt i hpos⟩

theorem separate_cellOf (dir : Direction) (g : Game) :
    Separate (cellOf g.rows g.cols dir) (lineCount dir g) (lineLength dir g) := by
  intro l hl l' hl' k hk k' hk' h
  cases dir with
  | w => exact (index_inj hl hl' h).symm
  | s =>
    have hrow := index_inj hl hl' h
    simp only [lineLength] at hk hk'
    omega
  | a => exact index_inj hk hk' h
  | d =>
    simp only [lineLength] at hk hk'
    have hcol : g.cols - 1 - k < g.cols := by omega
    have hcol' : g.cols - 1 - k' < g.cols := by omega
    have hrow := index_inj hcol hcol' h
    omega

theorem cellOf_lt (dir : Direction) (g : Game) (hl : l < lineCount dir g)
    (hk : k < lineLength dir g) : cellOf g.rows g.cols dir l k < g.rows * g.cols := by
  cases dir with
  | w => exact index_lt hk hl
  | s =>
    simp only [lineLength] at hk
    exact index_lt (r := g.rows - 1 - k) (by omega) hl
  | a => exact index_lt hl hk
  | d =>
    simp only [lineLength] at hk
    exact index_lt (c := g.cols - 1 - k) hl (by omega)

theorem cellOf_lineAt (dir : Direction) (g : Game) (hi : i < g.rows * g.cols) :
    lineAt g dir i < lineCount dir g ∧ placeAt g dir i < lineLength dir g ∧
      cellOf g.rows g.cols dir (lineAt g dir i) (placeAt g dir i) = i := by
  obtain ⟨hrow, hcol⟩ := index_lines hi
  have hi' : i / g.cols * g.cols + i % g.cols = i := Nat.div_add_mod' i g.cols
  cases dir with
  | w => exact ⟨hcol, hrow, hi'⟩
  | s =>
    have hback := Nat.sub_sub_self (Nat.le_sub_one_of_lt hrow)
    refine ⟨hcol, ?_, ?_⟩
    · exact (Nat.sub_le _ _).trans_lt (Nat.sub_lt (by omega) Nat.zero_lt_one)
    · rw [cellOf, placeAt, lineAt, hback, hi']
  | a => exact ⟨hrow, hcol, hi'⟩
  | d =>
    have hback := Nat.sub_sub_self (Nat.le_sub_one_of_lt hcol)
    refine ⟨hrow, ?_, ?_⟩
    · exact (Nat.sub_le _ _).trans_lt (Nat.sub_lt (by omega) Nat.zero_lt_one)
    · rw [cellOf, placeAt, lineAt, hback, hi']

theorem moveA_eq (g : Game) : moveA g =
    moveLines g.rows g.cols slideCell forUp (fun r c => cellAt g.rows g.cols r c)
      (fun r c => cellAt g.rows g.cols r c) (fun r c => cellAt g.rows g.cols r (c + 1)) g := by
  rw [moveA, swapCell_eq]

theorem moveD_eq (g : Game) : moveD g =
    moveLines g.rows g.cols slideCell forDown (fun r c => cellAt g.rows g.cols r (c + 1))
      (fun r c => cellAt g.rows g.cols r (c + 1)) (fun r c => cellAt g.rows g.cols r c) g := by
  rw [moveD, swapCell_eq]

theorem move_follows (dir : Direction) (g : Game) :
    ∃ order near far,
      Follows (lineCount dir g) (lineLength dir g) order near near far
        (cellOf g.rows g.cols dir) ∧
      move dir g =
        moveLines (lineCount dir g) (lineLength dir g) slideCell order near near far g := by
  have hidx := separate_cellOf dir g
  cases dir with
  | w =>
    refine ⟨_, _, _, follows_away hidx fun l hl k hk => ?_, rfl⟩
    simp only [lineLength] at hk
    exact ⟨cellAt_eq (by omega) hl, cellAt_eq (by omega) hl⟩
  | s =>
    refine ⟨_, _, _, follows_towards hidx fun l hl k hk => ?_, moveLines_far slideCell g⟩
    simp only [lineCount, lineLength] at hl hk
    have hnear : g.rows - 1 - 1 - k + 1 = g.rows - 1 - k := by omega
    have hfar : g.rows - 1 - 1 - k = g.rows - 1 - (k + 1) := by omega
    simp only [lineLength, cellOf]
    rw [hnear, hfar]
    exact ⟨cellAt_eq (by omega) hl, cellAt_eq (by omega) hl⟩
  | a =>
    refine ⟨_, _, _, follows_away hidx fun l hl k hk => ?_, moveA_eq g⟩
    simp only [lineLength] at hk
    exact ⟨cellAt_eq hl (by omega), cellAt_eq hl (by omega)⟩
  | d =>
    refine ⟨_, _, _, follows_towards hidx fun l hl k hk => ?_, moveD_eq g⟩
    simp only [lineCount, lineLength] at hl hk
    have hnear : g.cols - 1 - 1 - k + 1 = g.cols - 1 - k := by omega
    have hfar : g.cols - 1 - 1 - k = g.cols - 1 - (k + 1) := by omega
    simp only [lineLength, cellOf]
    rw [hnear, hfar]
    exact ⟨cellAt_eq hl (by omega), cellAt_eq hl (by omega)⟩

section Result

variable (dir : Direction) (g : Game)

theorem move_line (hl : l < lineCount dir g) :
    readLine (cellOf g.rows g.cols dir l) (lineLength dir g) (move dir g).2.cells =
      moveLine (line dir g l) := by
  obtain ⟨order, near, far, hfollows, heq⟩ := move_follows dir g
  rw [heq]
  exact moveLines_line hfollows g hl

theorem move_eq : move dir g =
    (if (List.range (lineCount dir g)).any (fun l => moveLine (line dir g l) ≠ line dir g l)
      then 1 else 0,
      { g with
        score := g.score +
          ((List.range (lineCount dir g)).map fun l => gained (tiles (line dir g l))).sum
        cells := (move dir g).2.cells }) := by
  obtain ⟨order, near, far, hfollows, heq⟩ := move_follows dir g
  rw [heq, moveLines_eq hfollows g]
  rfl

theorem lineCount_move (dir' : Direction) : lineCount dir' (move dir g).2 = lineCount dir' g := by
  rw [move_eq]
  cases dir' <;> rfl

theorem lineLength_move (dir' : Direction) :
    lineLength dir' (move dir g).2 = lineLength dir' g := by
  rw [move_eq]
  cases dir' <;> rfl

theorem move_cells (hi : i < g.rows * g.cols) : (move dir g).2.cells i =
    (moveLine (line dir g (lineAt g dir i))).getD (placeAt g dir i) empty := by
  obtain ⟨hl, hk, hcell⟩ := cellOf_lineAt dir g hi
  rw [← move_line dir g hl, readLine_getD hk, hcell]

theorem line_move (hl : l < lineCount dir g) :
    line dir (move dir g).2 l = moveLine (line dir g l) := by
  have hrows : (move dir g).2.rows = g.rows := lineCount_move dir g .a
  have hcols : (move dir g).2.cols = g.cols := lineCount_move dir g .w
  rw [line, lineOf, hrows, hcols, lineLength_move, move_line dir g hl]

theorem move_outside (hi : g.rows * g.cols ≤ i) : (move dir g).2.cells i = g.cells i := by
  obtain ⟨order, near, far, hfollows, heq⟩ := move_follows dir g
  rw [heq]
  refine moveLines_rest hfollows g fun l hl k hk he => ?_
  have hlt := cellOf_lt dir g hl hk
  omega

theorem line_changed_iff :
    (List.range (lineCount dir g)).any (fun l => moveLine (line dir g l) ≠ line dir g l) = true ↔
      ∃ i, i < g.rows * g.cols ∧ (move dir g).2.cells i ≠ g.cells i := by
  rw [List.any_eq_true]
  constructor
  · rintro ⟨l, hmem, hl⟩
    by_contra hnone
    have hsame : ∀ i, i < g.rows * g.cols → (move dir g).2.cells i = g.cells i := fun i hi => by
      by_contra hi'
      exact hnone ⟨i, hi, hi'⟩
    have hcount := List.mem_range.mp hmem
    have hline : moveLine (line dir g l) = line dir g l := by
      rw [← move_line dir g hcount]
      exact readLine_congr fun k hk => hsame _ (cellOf_lt dir g hcount hk)
    simp [hline] at hl
  · rintro ⟨i, hi, hne⟩
    obtain ⟨hl, hk, hcell⟩ := cellOf_lineAt dir g hi
    refine ⟨lineAt g dir i, List.mem_range.mpr hl, ?_⟩
    have hline : moveLine (line dir g (lineAt g dir i)) ≠ line dir g (lineAt g dir i) := by
      intro hsame
      rw [move_cells dir g hi, hsame, line, lineOf, readLine_getD hk, hcell] at hne
      exact hne rfl
    simpa using hline

theorem move_eq_reference : move dir g = reference dir g := by
  have hcells : (move dir g).2.cells = fun i => if i < g.rows * g.cols
      then (moveLine (line dir g (lineAt g dir i))).getD (placeAt g dir i) empty
      else g.cells i := by
    funext i
    split
    next hi => exact move_cells dir g hi
    next hi => exact move_outside dir g (by omega)
  have hreference : reference dir g =
      (if ∃ i, i < g.rows * g.cols ∧ (move dir g).2.cells i ≠ g.cells i then 1 else 0,
        { g with
          score := g.score +
            ((List.range (lineCount dir g)).map fun l => gained (tiles (line dir g l))).sum
          cells := (move dir g).2.cells }) := by
    rw [hcells]
    rfl
  rw [hreference]
  refine (move_eq dir g).trans ?_
  simp only [line_changed_iff]

end Result

def transpose (g : Game) : Game where
  rows := g.cols
  cols := g.rows
  score := g.score
  cells i := if i < g.rows * g.cols then g.cells (i % g.rows * g.cols + i / g.rows) else g.cells i

def flip (g : Game) : Game :=
  { g with cells := fun i => if i < g.rows * g.cols
      then g.cells ((g.rows - 1 - i / g.cols) * g.cols + i % g.cols) else g.cells i }

structure Turns (T : Game → Game) (dir dir' : Direction) : Prop where
  count : ∀ g, lineCount dir' (T g) = lineCount dir g
  length : ∀ g, lineLength dir' (T g) = lineLength dir g
  line : ∀ g l, l < lineCount dir g → line dir' (T g) l = line dir g l
  score : ∀ g, (T g).score = g.score
  rest : ∀ g i, g.rows * g.cols ≤ i → (T g).cells i = g.cells i

theorem size_eq (dir : Direction) (g : Game) :
    lineCount dir g * lineLength dir g = g.rows * g.cols := by
  cases dir with
  | w | s => exact Nat.mul_comm _ _
  | a | d => rfl

theorem game_ext (dir : Direction) (hcount : lineCount dir g = lineCount dir g')
    (hlength : lineLength dir g = lineLength dir g')
    (hline : ∀ l, l < lineCount dir g → line dir g l = line dir g' l)
    (hscore : g.score = g'.score)
    (hrest : ∀ i, g.rows * g.cols ≤ i → g.cells i = g'.cells i) : g = g' := by
  obtain ⟨rows, cols, score, cells⟩ := g
  obtain ⟨rows', cols', score', cells'⟩ := g'
  obtain ⟨rfl, rfl⟩ : rows = rows' ∧ cols = cols' := by
    cases dir with
    | w | s => exact ⟨hlength, hcount⟩
    | a | d => exact ⟨hcount, hlength⟩
  obtain rfl : score = score' := hscore
  have hcells : cells = cells' := by
    funext i
    by_cases hi : i < rows * cols
    · obtain ⟨hl, hk, hcell⟩ := cellOf_lineAt dir ⟨rows, cols, score, cells⟩ hi
      have hget := congrArg
        (fun l => l.getD (placeAt ⟨rows, cols, score, cells⟩ dir i) empty) (hline _ hl)
      simp only [line, lineOf] at hget
      rw [readLine_getD hk, hcell, ← hlength, readLine_getD hk, hcell] at hget
      exact hget
    · exact hrest i (by simp only; omega)
  rw [hcells]

theorem turns_comp {T T' : Game → Game} {dir dir' dir'' : Direction} (h : Turns T dir dir')
    (h' : Turns T' dir' dir'') : Turns (T' ∘ T) dir dir'' where
  count g := (h'.count (T g)).trans (h.count g)
  length g := (h'.length (T g)).trans (h.length g)
  line g l hl := (h'.line (T g) l (by rw [h.count]; exact hl)).trans (h.line g l hl)
  score g := (h'.score (T g)).trans (h.score g)
  rest g i hi := by
    have hsize : (T g).rows * (T g).cols = g.rows * g.cols := by
      rw [← size_eq dir', h.count, h.length, size_eq]
    exact (h'.rest (T g) i (by omega)).trans (h.rest g i hi)

theorem turns_any {T : Game → Game} {dir dir' : Direction} (h : Turns T dir dir') (g : Game)
    (p : List Int → Bool) :
    ((List.range (lineCount dir' (T g))).any fun l => p (line dir' (T g) l)) =
      (List.range (lineCount dir g)).any fun l => p (line dir g l) := by
  rw [h.count, Bool.eq_iff_iff]
  simp only [List.any_eq_true, List.mem_range]
  exact exists_congr fun l => and_congr_right fun hl => by rw [h.line g l hl]

theorem turns_sum {T : Game → Game} {dir dir' : Direction} (h : Turns T dir dir') (g : Game)
    (f : List Int → Int) :
    ((List.range (lineCount dir' (T g))).map fun l => f (line dir' (T g) l)).sum =
      ((List.range (lineCount dir g)).map fun l => f (line dir g l)).sum := by
  rw [h.count]
  refine congrArg List.sum (List.map_congr_left fun l hl => ?_)
  rw [h.line g l (List.mem_range.mp hl)]

theorem move_turned {T T' : Game → Game} {dir dir' : Direction} (h : Turns T dir dir')
    (h' : Turns T' dir' dir) (g : Game) :
    move dir g = Prod.map id T' (move dir' (T g)) := by
  have hsize : (T g).rows * (T g).cols = g.rows * g.cols := by
    rw [← size_eq dir', h.count, h.length, size_eq]
  have hlines := turns_any h g fun l => moveLine l ≠ l
  have hgain := turns_sum h g fun l => gained (tiles l)
  refine Prod.ext ?_ (game_ext dir ?_ ?_ (fun l hl => ?_) ?_ fun i hi => ?_)
  · rw [move_eq dir g, Prod.map_fst, id, move_eq dir' (T g)]
    simp only [hlines]
  · rw [lineCount_move, Prod.map_snd, h'.count, lineCount_move, h.count]
  · rw [lineLength_move, Prod.map_snd, h'.length, lineLength_move, h.length]
  · rw [lineCount_move] at hl
    rw [line_move dir g hl, Prod.map_snd, h'.line _ l (by rw [lineCount_move, h.count]; exact hl),
      line_move dir' (T g) (by rw [h.count]; exact hl), h.line g l hl]
  · rw [move_eq dir g, Prod.map_snd, h'.score, move_eq dir' (T g)]
    simp only [hgain, h.score]
  · rw [← size_eq dir, lineCount_move, lineLength_move, size_eq] at hi
    have hi' : (move dir' (T g)).2.rows * (move dir' (T g)).2.cols ≤ i := by
      rw [← size_eq dir', lineCount_move, lineLength_move, size_eq]
      omega
    rw [move_outside dir g hi, Prod.map_snd, h'.rest _ i hi', move_outside dir' (T g) (by omega),
      h.rest g i hi]

theorem transpose_cell (g : Game) (hr : r < g.cols) (hc : c < g.rows) :
    (transpose g).cells (r * g.rows + c) = g.cells (c * g.cols + r) := by
  have hi := index_lt hr hc
  rw [Nat.mul_comm g.cols] at hi
  simp only [transpose, if_pos hi, index_div hc, index_mod hc]

theorem flip_cell (g : Game) (hr : r < g.rows) (hc : c < g.cols) :
    (flip g).cells (r * g.cols + c) = g.cells ((g.rows - 1 - r) * g.cols + c) := by
  simp only [flip, if_pos (index_lt hr hc), index_div hc, index_mod hc]

theorem turns_of_cells {T : Game → Game} {dir dir' : Direction}
    (hcount : ∀ g, lineCount dir' (T g) = lineCount dir g)
    (hlength : ∀ g, lineLength dir' (T g) = lineLength dir g)
    (hcell : ∀ g l k, l < lineCount dir g → k < lineLength dir g →
      (T g).cells (cellOf (T g).rows (T g).cols dir' l k) = g.cells (cellOf g.rows g.cols dir l k))
    (hscore : ∀ g, (T g).score = g.score)
    (hrest : ∀ g i, g.rows * g.cols ≤ i → (T g).cells i = g.cells i) : Turns T dir dir' where
  count := hcount
  length := hlength
  line g l hl := by
    rw [line, lineOf, hlength]
    exact readLine_congr fun k hk => hcell g l k hl hk
  score := hscore
  rest := hrest

theorem transpose_rest (g : Game) (i : Nat) (hi : g.rows * g.cols ≤ i) :
    (transpose g).cells i = g.cells i := if_neg (by omega)

theorem flip_rest (g : Game) (i : Nat) (hi : g.rows * g.cols ≤ i) :
    (flip g).cells i = g.cells i := if_neg (by omega)

theorem transpose_a : Turns transpose .a .w :=
  turns_of_cells (fun _ => rfl) (fun _ => rfl) (fun g _ _ hl hk => transpose_cell g hk hl)
    (fun _ => rfl) transpose_rest

theorem transpose_w : Turns transpose .w .a :=
  turns_of_cells (fun _ => rfl) (fun _ => rfl) (fun g _ _ hl hk => transpose_cell g hl hk)
    (fun _ => rfl) transpose_rest

theorem transpose_d : Turns transpose .d .s := by
  refine turns_of_cells (fun _ => rfl) (fun _ => rfl) (fun g l k hl hk => ?_) (fun _ => rfl)
    transpose_rest
  simp only [lineLength] at hk
  exact transpose_cell g (r := g.cols - 1 - k) (by omega) hl

theorem transpose_s : Turns transpose .s .d := by
  refine turns_of_cells (fun _ => rfl) (fun _ => rfl) (fun g l k hl hk => ?_) (fun _ => rfl)
    transpose_rest
  simp only [lineLength] at hk
  exact transpose_cell g (c := g.rows - 1 - k) hl (by omega)

theorem flip_s : Turns flip .s .w :=
  turns_of_cells (fun _ => rfl) (fun _ => rfl) (fun g _ _ hl hk => flip_cell g hk hl)
    (fun _ => rfl) flip_rest

theorem flip_w : Turns flip .w .s := by
  refine turns_of_cells (fun _ => rfl) (fun _ => rfl) (fun g l k hl hk => ?_) (fun _ => rfl)
    flip_rest
  simp only [lineLength] at hk
  have hback : g.rows - 1 - (g.rows - 1 - k) = k := by omega
  have hcell := flip_cell g (r := g.rows - 1 - k) (by omega) hl
  rw [hback] at hcell
  exact hcell

/-- The four moves are the moves of the rules, and one move up to turning the board. -/
theorem moves_are_reference (g : Game) :
    (moveW g = reference .w g ∧ moveS g = reference .s g ∧ moveA g = reference .a g ∧
      moveD g = reference .d g) ∧
    moveS g = Prod.map id flip (moveW (flip g)) ∧
    moveA g = Prod.map id transpose (moveW (transpose g)) ∧
    moveD g = Prod.map id (transpose ∘ flip) (moveW (flip (transpose g))) :=
  ⟨⟨move_eq_reference .w g, move_eq_reference .s g, move_eq_reference .a g,
      move_eq_reference .d g⟩,
    move_turned flip_s flip_w g, move_turned transpose_a transpose_w g,
    move_turned (turns_comp transpose_d flip_s) (turns_comp flip_w transpose_s) g⟩

/-- A merged tile does not merge again. -/
example : line .w (moveW ⟨3, 1, 0, fun i => if i = 2 then 4 else 2⟩).2 0 = [4, 4, -1] := by
  decide

end RedstoneOS.BoardMoves
