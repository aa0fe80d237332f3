import RedstoneOS.GameTurns
import Mathlib.Algebra.BigOperators.Intervals
import Mathlib.Algebra.BigOperators.Ring.Finset
import Mathlib.Tactic.Ring

namespace RedstoneOS.GameScore

open Game2048 Merging MoveLines BoardMoves GameTurns Library.LineSweep

def IsTile (v : Int) : Prop := ∃ k : Nat, 1 ≤ k ∧ v = 2 ^ k

def boardTiles (g : Game) : List Int := tiles ((List.range (g.rows * g.cols)).map g.cells)

def tileScore (v : Int) : Int := ((Nat.log2 v.toNat : Int) - 1) * v

structure Balanced (p : Play) : Prop where
  cells : ∀ i, i < p.game.rows * p.game.cols → p.game.cells i = -1 ∨ IsTile (p.game.cells i)
  total : (boardTiles p.game).sum = 2 * p.placed
  score : p.game.score = ((boardTiles p.game).map tileScore).sum

variable {g : Game} {dir : Direction} {p p' : Play} {t l : List Int} {F : Int → Int} {v : Int}
  {c : UInt8} {i : Nat}

theorem tileScore_pow (k : Nat) : tileScore (2 ^ k) = ((k : Int) - 1) * 2 ^ k := by
  have hlog : Nat.log2 ((2 : Int) ^ k).toNat = k := by
    rw [show (2 : Int) ^ k = ((2 ^ k : Nat) : Int) by push_cast; rfl, Int.toNat_natCast,
      Nat.log2_two_pow]
  rw [tileScore, hlog]

theorem IsTile.double (h : IsTile v) : IsTile (2 * v) := by
  obtain ⟨k, hk, rfl⟩ := h
  exact ⟨k + 1, by omega, by rw [pow_succ, Int.mul_comm]⟩

theorem IsTile.ne (h : IsTile v) : v ≠ -1 := by
  obtain ⟨k, -, rfl⟩ := h
  have : (0 : Int) < 2 ^ k := Int.pow_pos (by decide)
  omega

theorem tileScore_double (h : IsTile v) :
    tileScore (2 * v) = tileScore v + tileScore v + 2 * v := by
  obtain ⟨k, -, rfl⟩ := h
  rw [show (2 : Int) * 2 ^ k = 2 ^ (k + 1) by rw [pow_succ, Int.mul_comm], tileScore_pow,
    tileScore_pow]
  push_cast
  ring

theorem merge_isTile (h : ∀ x, x ∈ t → IsTile x) : ∀ x, x ∈ merge t → IsTile x := by
  induction t using merge.induct with
  | case1 x l ih =>
    rw [merge, if_pos rfl]
    intro y hy
    obtain rfl | hy := List.mem_cons.mp hy
    · exact (h x List.mem_cons_self).double
    · exact ih (fun z hz => h z (by simp [hz])) y hy
  | case2 x y l hxy ih =>
    rw [merge_next hxy]
    intro z hz
    obtain rfl | hz := List.mem_cons.mp hz
    · exact h z List.mem_cons_self
    · exact ih (fun w hw => h w (List.mem_cons_of_mem x hw)) z hz
  | case3 l hl =>
    rw [merge]
    · exact h
    · exact hl

theorem merge_sum (c : Int) (h : ∀ x, x ∈ t → F (2 * x) = F x + F x + c * (2 * x)) :
    ((merge t).map F).sum = (t.map F).sum + c * gained t := by
  induction t using merge.induct with
  | case1 x l ih =>
    rw [merge, gained, if_pos rfl, if_pos rfl]
    simp only [List.map_cons, List.sum_cons, h x List.mem_cons_self,
      ih (fun z hz => h z (by simp [hz]))]
    ring
  | case2 x y l hxy ih =>
    have ih := ih (fun z hz => h z (List.mem_cons_of_mem x hz))
    rw [merge_next hxy, gained, if_neg hxy]
    simp only [List.map_cons, List.sum_cons] at ih ⊢
    rw [ih]
    ring
  | case3 l hl =>
    have hgain : gained l = 0 := by
      cases l with
      | nil => rfl
      | cons x l =>
        cases l with
        | nil => rfl
        | cons y l => exact (hl x y l rfl).elim
    rw [hgain, merge]
    · ring
    · exact hl

def weigh (F : Int → Int) (v : Int) : Int := if v = -1 then 0 else F v

theorem tiles_sum (F : Int → Int) (l : List Int) :
    ((tiles l).map F).sum = (l.map (weigh F)).sum := by
  induction l with
  | nil => rfl
  | cons x l ih =>
    by_cases hx : x = -1
    · subst hx
      rw [tiles_hole, ih, List.map_cons, List.sum_cons, weigh, if_pos rfl, Int.zero_add]
    · rw [tiles_tile hx, List.map_cons, List.sum_cons, ih, List.map_cons, List.sum_cons, weigh,
        if_neg hx]

theorem sum_range (n : Nat) (f : Nat → Int) :
    ((List.range n).map f).sum = ∑ i ∈ Finset.range n, f i := by
  rfl

theorem sum_lines (dir : Direction) (g : Game) (F : Int → Int) :
    (((List.range (g.rows * g.cols)).map g.cells).map F).sum =
      ∑ l ∈ Finset.range (lineCount dir g), ((line dir g l).map F).sum := by
  have hline : ∀ l, ((line dir g l).map F).sum = ∑ k ∈ Finset.range (lineLength dir g),
      F (g.cells (cellOf g.rows g.cols dir l k)) := by
    intro l
    have hcells : line dir g l = (List.range (lineLength dir g)).map
        fun k => g.cells (cellOf g.rows g.cols dir l k) := by
      refine List.ext_getElem (by simp [line, lineOf]) fun k hk _ => ?_
      rw [List.getElem_map, List.getElem_range]
      exact readLine_getElem hk
    rw [hcells, List.map_map, sum_range]
    rfl
  rw [List.map_map, sum_range, Finset.sum_congr rfl fun l _ => hline l,
    ← Finset.sum_product' (Finset.range (lineCount dir g)) (Finset.range (lineLength dir g))
      fun l k => F (g.cells (cellOf g.rows g.cols dir l k))]
  refine Finset.sum_nbij' (i := fun i => (lineAt g dir i, placeAt g dir i))
    (j := fun x => cellOf g.rows g.cols dir x.1 x.2) ?_ ?_ ?_ ?_ ?_
  · intro i hi
    obtain ⟨hl, hk, -⟩ := cellOf_lineAt dir g (Finset.mem_range.mp hi)
    exact Finset.mem_product.mpr ⟨Finset.mem_range.mpr hl, Finset.mem_range.mpr hk⟩
  · intro x hx
    obtain ⟨hl, hk⟩ := Finset.mem_product.mp hx
    exact Finset.mem_range.mpr
      (cellOf_lt dir g (Finset.mem_range.mp hl) (Finset.mem_range.mp hk))
  · intro i hi
    exact (cellOf_lineAt dir g (Finset.mem_range.mp hi)).2.2
  · intro x hx
    obtain ⟨hl, hk⟩ := Finset.mem_product.mp hx
    have hl := Finset.mem_range.mp hl
    have hk := Finset.mem_range.mp hk
    obtain ⟨hl', hk', hcell⟩ := cellOf_lineAt dir g (cellOf_lt dir g hl hk)
    obtain ⟨h1, h2⟩ := separate_cellOf dir g _ hl' _ hl _ hk' _ hk hcell
    exact Prod.ext h1 h2
  · intro i hi
    rw [(cellOf_lineAt dir g (Finset.mem_range.mp hi)).2.2]
    rfl

theorem mem_line (dir : Direction) (hi : i < g.rows * g.cols) :
    lineAt g dir i < lineCount dir g ∧ g.cells i ∈ line dir g (lineAt g dir i) := by
  obtain ⟨hl, hk, hcell⟩ := cellOf_lineAt dir g hi
  refine ⟨hl, List.mem_iff_getElem.mpr ⟨placeAt g dir i, ?_, ?_⟩⟩
  · rw [line, lineOf, readLine_length]
    exact hk
  · rw [← congrArg g.cells hcell]
    exact readLine_getElem _

theorem boardTiles_lines (dir : Direction) (g : Game) (F : Int → Int) :
    ((boardTiles g).map F).sum =
      ∑ l ∈ Finset.range (lineCount dir g), ((tiles (line dir g l)).map F).sum := by
  rw [boardTiles, tiles_sum, sum_lines dir g]
  exact Finset.sum_congr rfl fun l _ => (tiles_sum F _).symm

theorem line_isTile (h : ∀ i, i < g.rows * g.cols → g.cells i = -1 ∨ IsTile (g.cells i))
    {l : Nat} (hl : l < lineCount dir g) : ∀ x, x ∈ tiles (line dir g l) → IsTile x := by
  intro x hx
  obtain ⟨hmem, hne⟩ := List.mem_filter.mp hx
  obtain ⟨k, hk, rfl⟩ := List.mem_iff_getElem.mp hmem
  have hlen : (line dir g l).length = lineLength dir g := readLine_length _ _ _
  have hcell : (line dir g l)[k] = g.cells (cellOf g.rows g.cols dir l k) := readLine_getElem hk
  rw [hcell] at hne ⊢
  exact (h _ (cellOf_lt dir g hl (by omega))).resolve_left (of_decide_eq_true hne)

theorem move_sum (dir : Direction) (F : Int → Int) (c : Int)
    (h : ∀ i, i < g.rows * g.cols → g.cells i = -1 ∨ IsTile (g.cells i))
    (hF : ∀ x, IsTile x → F (2 * x) = F x + F x + c * (2 * x)) :
    ((boardTiles (move dir g).2).map F).sum = ((boardTiles g).map F).sum +
      c * ((List.range (lineCount dir g)).map fun l => gained (tiles (line dir g l))).sum := by
  rw [boardTiles_lines dir, boardTiles_lines dir g, lineCount_move, sum_range, Finset.mul_sum,
    ← Finset.sum_add_distrib]
  refine Finset.sum_congr rfl fun l hl => ?_
  have hl := Finset.mem_range.mp hl
  rw [line_move dir g hl, tiles_moveLine, merge_sum c fun x hx => hF x (line_isTile h hl x hx)]

theorem balanced_move (h : Balanced p) (dir : Direction) :
    Balanced { p with game := (move dir p.game).2 } where
  cells i hi := by
    obtain ⟨hl, hmem⟩ := mem_line dir hi
    rw [lineCount_move] at hl
    rw [line_move dir p.game hl, moveLine] at hmem
    obtain hmem | hmem := List.mem_append.mp hmem
    · exact Or.inr (merge_isTile (line_isTile h.cells hl) _ hmem)
    · exact Or.inl (List.eq_of_mem_replicate hmem)
  total := by
    have hsum := move_sum dir id 0 h.cells fun x _ => by simp only [id]; ring
    rw [Int.zero_mul, Int.add_zero, List.map_id, List.map_id] at hsum
    exact hsum.trans h.total
  score := by
    have hsum := move_sum dir tileScore 1 h.cells fun x hx => by
      rw [tileScore_double hx]
      ring
    rw [hsum, ← h.score, move_eq, Int.one_mul]

theorem randomCell_lt (hpos : 0 < g.rows * g.cols) (indexRandom : Nat) :
    randomCell g indexRandom < g.rows * g.cols := by
  have hind := Nat.mod_lt (randomNumber indexRandom) hpos
  obtain ⟨hrow, hcol⟩ := index_lines hind
  rw [randomCell, cellAt_eq hrow hcol]
  exact index_lt hrow hcol

theorem newTile_eq (h : i < 10) : newTile i = 2 := by
  have hall : ∀ j : Fin 10, newTile j = 2 := by decide
  exact hall ⟨i, h⟩

theorem place_sum (hi : i < g.rows * g.cols) (hempty : g.cells i = -1) (hv : v ≠ -1) :
    ((boardTiles { g with cells := Function.update g.cells i v }).map F).sum =
      ((boardTiles g).map F).sum + F v := by
  have hmem := Finset.mem_range.mpr hi
  simp only [boardTiles, tiles_sum, List.map_map, sum_range, Function.comp_apply]
  rw [← Finset.add_sum_erase _ _ hmem, ← Finset.add_sum_erase _ (fun j => weigh F (g.cells j)) hmem,
    Function.update_self, hempty, weigh, weigh, if_neg hv, if_pos rfl, Int.zero_add, Int.add_comm]
  congr 1
  refine Finset.sum_congr rfl fun j hj => ?_
  rw [Function.update_of_ne (Finset.ne_of_mem_erase hj)]

theorem balanced_tile (h : Balanced p) (hpos : 0 < p.game.rows * p.game.cols)
    (htile : randNewTile p = some p') : Balanced p' := by
  obtain ⟨j, hj, rfl⟩ := Option.map_eq_some_iff.mp htile
  obtain ⟨k, -, rfl, hempty, -⟩ := tileSearch_eq_some.mp hj
  have hcell := randomCell_lt hpos ((p.indexRandom + k + 1) % 10)
  have hplace := fun F => place_sum (F := F) (v := 2) hcell hempty (by decide)
  rw [newTile_eq (Nat.mod_lt _ (by decide))]
  refine ⟨fun i hi => ?_, ?_, ?_⟩
  · simp only [Function.update_apply]
    split
    · exact Or.inr ⟨1, Nat.le_refl 1, rfl⟩
    · exact h.cells i hi
  · have hsum := hplace id
    rw [List.map_id, List.map_id, h.total] at hsum
    rw [hsum]
    push_cast
    rw [Int.mul_add]
    rfl
  · rw [hplace tileScore, ← h.score]
    exact (Int.add_zero _).symm

theorem balanced_new (rows cols : Nat) (memory : Nat → Int) (indexRandom : Nat) :
    Balanced ⟨indexRandom, newGame rows cols memory, 0⟩ := by
  have hempty : ∀ i, i < rows * cols → (newGame rows cols memory).cells i = -1 :=
    fun i hi => if_pos hi
  have htiles : boardTiles (newGame rows cols memory) = [] := by
    refine List.filter_eq_nil_iff.mpr fun x hx => ?_
    obtain ⟨i, hi, rfl⟩ := List.mem_map.mp hx
    rw [hempty i (List.mem_range.mp hi)]
    decide
  exact ⟨fun i hi => Or.inl (hempty i hi), by rw [htiles]; rfl, by rw [htiles]; rfl⟩

def Kept (rows cols : Nat) (p : Play) : Prop :=
  p.game.rows = rows ∧ p.game.cols = cols ∧ Balanced p

theorem kept_tile {rows cols : Nat} (hpos : 0 < rows * cols) (h : Kept rows cols p)
    (htile : randNewTile p = some p') : Kept rows cols p' := by
  obtain ⟨rfl, rfl, hb⟩ := h
  have hb' := balanced_tile hb hpos htile
  obtain ⟨j, -, rfl⟩ := Option.map_eq_some_iff.mp htile
  exact ⟨rfl, rfl, hb'⟩

theorem kept_turn {rows cols : Nat} (hpos : 0 < rows * cols) (h : Kept rows cols p)
    (hturn : processTurn c p = some (v, p')) : Kept rows cols p' := by
  obtain rfl | ⟨dir, hmove⟩ := processTurn_game hturn
  · exact h
  · obtain ⟨rfl, rfl, hb⟩ := h
    have hmoved : Kept p.game.rows p.game.cols { p with game := (move dir p.game).2 } :=
      ⟨by rw [move_eq], by rw [move_eq], balanced_move hb dir⟩
    obtain rfl | htile := hmove
    · exact hmoved
    · exact kept_tile hpos hmoved htile

theorem kept_turns {rows cols : Nat} (hpos : 0 < rows * cols) (h : Kept rows cols p)
    {inputs : List UInt8} (hrun : playTurns p inputs = some p') : Kept rows cols p' := by
  induction inputs generalizing p with
  | nil =>
    obtain rfl := Option.some.inj hrun
    exact h
  | cons c inputs ih =>
    rw [playTurns, List.foldlM_cons, Option.bind_eq_bind] at hrun
    obtain ⟨q, hq, hrest⟩ := Option.bind_eq_some_iff.mp hrun
    obtain ⟨⟨v, q⟩, hturn, rfl⟩ := Option.map_eq_some_iff.mp hq
    exact ih (kept_turn hpos h hturn) hrest

/-- In every state of a game, on a board of any size, the cells are empty or powers of two, and
the tiles account for what has been placed and for the score. -/
theorem tiles_account {rows cols : Nat} (hrows : 1 ≤ rows) (hcols : 1 ≤ cols)
    (memory : Nat → Int) (indexRandom : Nat) (inputs : List UInt8)
    (hrun : (startGame rows cols memory indexRandom).bind (playTurns · inputs) = some p) :
    p.game.rows = rows ∧ p.game.cols = cols ∧
      (∀ i, i < rows * cols → p.game.cells i = -1 ∨ ∃ k : Nat, 1 ≤ k ∧ p.game.cells i = 2 ^ k) ∧
      (boardTiles p.game).sum = 2 * p.placed ∧
      p.game.score = ((boardTiles p.game).map tileScore).sum := by
  have hpos := Nat.mul_pos hrows hcols
  obtain ⟨q, hstart, hturns⟩ := Option.bind_eq_some_iff.mp hrun
  have hkept := kept_tile hpos ⟨rfl, rfl, balanced_new rows cols memory indexRandom⟩ hstart
  obtain ⟨hrow, hcol, hb⟩ := kept_turns hpos hkept hturns
  refine ⟨hrow, hcol, fun i hi => ?_, hb.total, hb.score⟩
  exact hb.cells i (by rw [hrow, hcol]; exact hi)

/-- Two turns on a board of one row, the second of which merges two tiles 2. -/
theorem tiles_account_row :
    ∃ q, (startGame 1 3 (fun _ => 0) 0).bind (playTurns · [100, 97]) = some q ∧
      (boardTiles q.game).sum = 2 * q.placed ∧
      q.game.score = ((boardTiles q.game).map tileScore).sum := by
  have hsome : ((startGame 1 3 (fun _ => 0) 0).bind (playTurns · [100, 97])).isSome := by
    decide +kernel
  obtain ⟨q, hq⟩ := Option.isSome_iff_exists.mp hsome
  exact ⟨q, hq, (tiles_account (by decide) (by decide) _ 0 [100, 97] hq).2.2.2⟩

end RedstoneOS.GameScore
