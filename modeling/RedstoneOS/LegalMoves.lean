import RedstoneOS.BoardMoves
import Mathlib.Data.List.Chain

namespace RedstoneOS.LegalMoves

open Game2048 Merging MoveLines BoardMoves Library.LineSweep Library.Packing

variable {g : Game} {dir : Direction} {l k k' r c i : Nat} {x : Int}

def HasHole (g : Game) : Prop := ∃ i, i < g.rows * g.cols ∧ g.cells i = -1

def HasTile (g : Game) : Prop := ∃ i, i < g.rows * g.cols ∧ g.cells i ≠ -1

def Paired (g : Game) (dir : Direction) : Prop :=
  ∃ l, l < lineCount dir g ∧ ∃ k, k < lineLength dir g - 1 ∧
    g.cells (cellOf g.rows g.cols dir l k) = g.cells (cellOf g.rows g.cols dir l (k + 1))

theorem merge_eq_self_iff (t : List Int) : merge t = t ↔ t.IsChain (· ≠ ·) := by
  induction t using merge.induct with
  | case1 x l ih => simp [merge_pair_ne]
  | case2 x y l hxy ih => simp [merge_next hxy, ih, hxy]
  | case3 l hl =>
    cases l with
    | nil => simp [merge]
    | cons x l =>
      cases l with
      | nil => simp [merge]
      | cons y l => exact (hl x y l rfl).elim

theorem move_returns_iff : (move dir g).1 = 1 ↔
    ∃ l, l < lineCount dir g ∧ moveLine (line dir g l) ≠ line dir g l := by
  have hflag : ∀ b : Bool, (if b then 1 else 0 : Int) = 1 ↔ b = true := by decide
  rw [move_eq]
  refine (hflag _).trans ?_
  simp only [List.any_eq_true, List.mem_range, decide_eq_true_eq]

theorem pack_ne (hk : k < k') (hk' : k' < lineLength dir g)
    (hhole : g.cells (cellOf g.rows g.cols dir l k) = -1)
    (htile : g.cells (cellOf g.rows g.cols dir l k') ≠ -1) :
    pack empty (line dir g l) ≠ line dir g l := by
  intro hpack
  have hlength : (line dir g l).length = lineLength dir g := readLine_length _ _ _
  have hnear : (line dir g l).getD k empty = empty := by
    rw [line, lineOf, readLine_getD (by omega), hhole]
    rfl
  have hfar := packed_hole hpack hk.le (by omega) hnear
  rw [line, lineOf, readLine_getD hk'] at hfar
  exact htile hfar

theorem moves_of_hole (hl : l < lineCount dir g) (hk : k < k') (hk' : k' < lineLength dir g)
    (hhole : g.cells (cellOf g.rows g.cols dir l k) = -1)
    (htile : g.cells (cellOf g.rows g.cols dir l k') ≠ -1) : (move dir g).1 = 1 :=
  move_returns_iff.mpr ⟨l, hl, fun h => pack_ne hk hk' hhole htile (moveLine_eq_self_iff.mp h).1⟩

theorem places_from_end {n : Nat} (hk : k < k') (hk' : k' < n) :
    n - 1 - k' < n - 1 - k ∧ n - 1 - k < n ∧
      n - 1 - (n - 1 - k) = k ∧ n - 1 - (n - 1 - k') = k' := by
  omega

theorem moves_of_hole_tile (hhole : HasHole g) (htile : HasTile g) :
    ∃ dir, (move dir g).1 = 1 := by
  obtain ⟨i, hi, hhole⟩ := hhole
  obtain ⟨j, hj, htile⟩ := htile
  obtain ⟨hri, hci⟩ := index_lines hi
  obtain ⟨hrj, hcj⟩ := index_lines hj
  rw [← Nat.div_add_mod' i g.cols] at hhole
  rw [← Nat.div_add_mod' j g.cols] at htile
  generalize i / g.cols = r at hri hhole
  generalize i % g.cols = c at hci hhole
  generalize j / g.cols = r' at hrj htile
  generalize j % g.cols = c' at hcj htile
  by_cases hcorner : g.cells (r * g.cols + c') = -1
  · -- the column of the tile
    obtain hlt | rfl | hlt := Nat.lt_trichotomy r r'
    · exact ⟨.w, moves_of_hole (l := c') hcj hlt hrj hcorner htile⟩
    · exact absurd hcorner htile
    · obtain ⟨hplace, hlast, hr', hr⟩ := places_from_end hlt hri
      refine ⟨.s, moves_of_hole (l := c') hcj hplace hlast ?_ ?_⟩
      · rw [cellOf, hr]
        exact hcorner
      · rw [cellOf, hr']
        exact htile
  · -- the row of the hole
    obtain hlt | rfl | hlt := Nat.lt_trichotomy c c'
    · exact ⟨.a, moves_of_hole (l := r) hri hlt hcj hhole hcorner⟩
    · exact absurd hhole hcorner
    · obtain ⟨hplace, hlast, hc', hc⟩ := places_from_end hlt hci
      refine ⟨.d, moves_of_hole (l := r) hri hplace hlast ?_ ?_⟩
      · rw [cellOf, hc]
        exact hhole
      · rw [cellOf, hc']
        exact hcorner

theorem line_tiles (hfull : ¬ HasHole g) (hl : l < lineCount dir g) :
    ∀ x ∈ line dir g l, x ≠ -1 := by
  intro x hx he
  obtain ⟨k, hk, hget⟩ := List.mem_iff_getElem.mp hx
  have hlength : (line dir g l).length = lineLength dir g := readLine_length _ _ _
  rw [show (line dir g l)[k] = g.cells (cellOf g.rows g.cols dir l k) from
    readLine_getElem hk] at hget
  exact hfull ⟨_, cellOf_lt dir g hl (by omega), hget.trans he⟩

theorem line_isChain (R : Int → Int → Prop) : (line dir g l).IsChain R ↔
    ∀ k, k < lineLength dir g - 1 →
      R (g.cells (cellOf g.rows g.cols dir l k)) (g.cells (cellOf g.rows g.cols dir l (k + 1))) := by
  have hlength : (line dir g l).length = lineLength dir g := readLine_length _ _ _
  have hget : ∀ k (hk : k < (line dir g l).length),
      (line dir g l)[k] = g.cells (cellOf g.rows g.cols dir l k) := fun k hk => readLine_getElem hk
  rw [List.isChain_iff_getElem]
  constructor
  · intro h k hk
    have hpair := h k (by omega)
    rwa [hget, hget] at hpair
  · intro h k hk
    rw [hget, hget]
    exact h k (by omega)

theorem full_moves_iff (hfull : ¬ HasHole g) : (move dir g).1 = 1 ↔ Paired g dir := by
  rw [move_returns_iff]
  refine exists_congr fun l => and_congr_right fun hl => ?_
  have htiles : tiles (line dir g l) = line dir g l := by
    rw [tiles, List.filter_eq_self]
    simpa using line_tiles hfull hl
  have hpack : pack empty (line dir g l) = line dir g l := by
    rw [pack_eq, htiles]
    simp
  rw [ne_eq, moveLine_eq_self_iff, htiles, merge_eq_self_iff, line_isChain]
  simp [hpack]

theorem paired_s (h : Paired g .s) : Paired g .w := by
  obtain ⟨l, hl, k, hk, he⟩ := h
  simp only [lineLength] at hk
  have hnext : g.rows - 1 - (k + 1) + 1 = g.rows - 1 - k := by omega
  refine ⟨l, hl, g.rows - 1 - (k + 1), ?_, ?_⟩
  · simp only [lineLength]
    omega
  · rw [cellOf, cellOf, hnext]
    exact he.symm

theorem paired_d (h : Paired g .d) : Paired g .a := by
  obtain ⟨l, hl, k, hk, he⟩ := h
  simp only [lineLength] at hk
  have hnext : g.cols - 1 - (k + 1) + 1 = g.cols - 1 - k := by omega
  refine ⟨l, hl, g.cols - 1 - (k + 1), ?_, ?_⟩
  · simp only [lineLength]
    omega
  · rw [cellOf, cellOf, hnext]
    exact he.symm

theorem legalMoveCheck_iff :
    legalMoveCheck g = 1 ↔ HasHole g ∨ Paired g .w ∨ Paired g .a := by
  have hflags : ∀ a b c : Bool, (if a then 1 else if b then 1 else if c then 1 else 0 : Int) = 1 ↔
      a = true ∨ b = true ∨ c = true := by decide
  refine (hflags _ _ _).trans (or_congr ?_ (or_congr ?_ ?_))
  · simp only [List.any_eq_true, List.mem_range, decide_eq_true_eq]
    rfl
  · simp only [List.any_eq_true, List.mem_range, decide_eq_true_eq]
    refine exists_congr fun c => and_congr_right fun hc => exists_congr fun r =>
      and_congr_right fun hr => ?_
    rw [cellAt_eq (by omega) hc, cellAt_eq (by omega) hc]
    rfl
  · simp only [List.any_eq_true, List.mem_range, decide_eq_true_eq]
    refine exists_congr fun r => and_congr_right fun hr => exists_congr fun c =>
      and_congr_right fun hc => ?_
    rw [cellAt_eq hr (by omega), cellAt_eq hr (by omega)]
    rfl

theorem any_move_iff : (∃ dir, (move dir g).1 = 1) ↔
    (moveW g).1 = 1 ∨ (moveS g).1 = 1 ∨ (moveA g).1 = 1 ∨ (moveD g).1 = 1 := by
  constructor
  · rintro ⟨dir, h⟩
    cases dir with
    | w => exact Or.inl h
    | s => exact Or.inr (Or.inl h)
    | a => exact Or.inr (Or.inr (Or.inl h))
    | d => exact Or.inr (Or.inr (Or.inr h))
  · rintro (h | h | h | h)
    · exact ⟨.w, h⟩
    · exact ⟨.s, h⟩
    · exact ⟨.a, h⟩
    · exact ⟨.d, h⟩

/-- The game goes on exactly while a move changes the board. -/
theorem legal_move_iff (g : Game) (htile : HasTile g) :
    legalMoveCheck g = 1 ↔
      (moveW g).1 = 1 ∨ (moveS g).1 = 1 ∨ (moveA g).1 = 1 ∨ (moveD g).1 = 1 := by
  rw [legalMoveCheck_iff, ← any_move_iff]
  by_cases hhole : HasHole g
  · simp only [hhole, true_or, moves_of_hole_tile hhole htile]
  · simp only [hhole, false_or, full_moves_iff hhole]
    constructor
    · rintro (h | h)
      · exact ⟨.w, h⟩
      · exact ⟨.a, h⟩
    · rintro ⟨dir, h⟩
      cases dir with
      | w => exact Or.inl h
      | s => exact Or.inl (paired_s h)
      | a => exact Or.inr h
      | d => exact Or.inr (paired_d h)

def fullBoard : Game := ⟨2, 2, 0, fun i => if i = 0 ∨ i = 3 then 2 else 4⟩

theorem legal_move_full :
    ¬ ((moveW fullBoard).1 = 1 ∨ (moveS fullBoard).1 = 1 ∨ (moveA fullBoard).1 = 1 ∨
      (moveD fullBoard).1 = 1) := by
  rw [← legal_move_iff fullBoard ⟨0, by decide, by decide⟩]
  decide

end RedstoneOS.LegalMoves
