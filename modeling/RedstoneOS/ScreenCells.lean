import RedstoneOS.CursorBounds

namespace RedstoneOS.ScreenCells

open Screen CursorBounds

def cell (t : Fin 3) (s : State) (i : Int) : UInt8 := s.memory (cellAddr t i)

def OnlyPage (t : Fin 3) (s s' : State) : Prop :=
  ∀ a, a < pageAddr t ∨ pageAddr t + 4000 ≤ a → s'.memory a = s.memory a

structure SamePage (u : Fin 3) (s s' : State) : Prop where
  memory : ∀ a, pageAddr u ≤ a → a < pageAddr u + 2 * sizeOfScreen → s'.memory a = s.memory a
  x : s'.screenX u = s.screenX u
  y : s'.screenY u = s.screenY u

def scrolled (f : Int → UInt8) (i : Int) : UInt8 := if i < 1920 then f (i + 80) else blank

variable {s s' s'' : State} {t u : Fin 3} {c a : UInt8} {i j : Int} {n : Nat}

section Fields

variable (t u : Fin 3) (x y i : Int) (s : State)

@[simp] theorem cell_setX : cell t (setX u x s) i = cell t s i := rfl
@[simp] theorem cell_setY : cell t (setY u y s) i = cell t s i := rfl
@[simp] theorem cell_showCursor : cell t (showCursor u s) i = cell t s i := rfl
@[simp] theorem setX_memory : (setX u x s).memory = s.memory := rfl
@[simp] theorem setY_memory : (setY u y s).memory = s.memory := rfl
@[simp] theorem showCursor_memory : (showCursor u s).memory = s.memory := rfl

end Fields

theorem samePage_refl (u : Fin 3) (s : State) : SamePage u s s := ⟨fun _ _ _ => rfl, rfl, rfl⟩

theorem samePage_trans (h : SamePage u s s') (h' : SamePage u s' s'') : SamePage u s s'' where
  memory a hlo hhi := (h'.memory a hlo hhi).trans (h.memory a hlo hhi)
  x := h'.x.trans h.x
  y := h'.y.trans h.y

theorem onlyPage_trans (h : OnlyPage t s s') (h' : OnlyPage t s' s'') : OnlyPage t s s'' :=
  fun a ha => (h' a ha).trans (h a ha)

theorem pages_apart (hu : u ≠ t) {a : Int} (hlo : pageAddr u ≤ a)
    (hhi : a < pageAddr u + 2 * sizeOfScreen) : a < pageAddr t ∨ pageAddr t + 4000 ≤ a := by
  have hval : u.val ≠ t.val := fun h => hu (Fin.ext h)
  simp only [pageAddr, videoMemory, sizeOfScreen] at hlo hhi ⊢
  omega

theorem cell_storeCell (t : Fin 3) (i : Int) (c a : UInt8) (s : State) (j : Int) :
    cell t (storeCell t i c a s) j = if j = i then c else cell t s j := by
  have hodd : cellAddr t j ≠ cellAddr t i + 1 := by
    simp only [cellAddr]
    omega
  rw [cell, storeCell_memory, if_neg hodd]
  by_cases hj : j = i
  · rw [if_pos (congrArg (cellAddr t) hj), if_pos hj]
  · have hne : cellAddr t j ≠ cellAddr t i := by
      simp only [cellAddr]
      omega
    rw [if_neg hne, if_neg hj, cell]

theorem onlyPage_storeCell (hi : 0 ≤ i) (hi' : i < 2000) : OnlyPage t s (storeCell t i c a s) := by
  intro addr haddr
  rw [storeCell_memory, if_neg, if_neg]
  · simp only [cellAddr]
    omega
  · simp only [cellAddr]
    omega

/-- A loop that stores in each cell what it reads from cells that it has not reached yet. -/
theorem cell_cellLoop {f : Int → State → UInt8} {g : Int → UInt8}
    (hf : ∀ j s', i ≤ j → (∀ j', j ≤ j' → cell t s' j' = cell t s j') → f j s' = g j) (j : Int) :
    cell t (cellLoop t f i n s) j = if i ≤ j ∧ j < i + n then g j else cell t s j := by
  induction n generalizing i s with
  | zero =>
    rw [cellLoop, if_neg (by omega)]
  | succ n ih =>
    have hlater : ∀ j', i + 1 ≤ j' → cell t (storeCell t i (f i s) attrib s) j' = cell t s j' := by
      intro j' hj'
      rw [cell_storeCell, if_neg (by omega)]
    have hrest : ∀ j s', i + 1 ≤ j → (∀ j', j ≤ j' →
        cell t s' j' = cell t (storeCell t i (f i s) attrib s) j') → f j s' = g j := by
      intro j s' hj hsame
      refine hf j s' (by omega) fun j' hj' => ?_
      rw [hsame j' hj', hlater j' (by omega)]
    rw [cellLoop, ih hrest, cell_storeCell, hf i s (Int.le_refl i) fun _ _ => rfl]
    by_cases hj : j = i
    · subst hj
      rw [if_neg (by omega), if_pos rfl, if_pos (by omega)]
    · rw [if_neg hj]
      by_cases hin : i + 1 ≤ j ∧ j < i + 1 + n
      · rw [if_pos hin, if_pos (by omega)]
      · rw [if_neg hin, if_neg (by omega)]

theorem onlyPage_cellLoop {f : Int → State → UInt8} (hi : 0 ≤ i) (hn : i + n ≤ 2000) :
    OnlyPage t s (cellLoop t f i n s) := by
  induction n generalizing i s with
  | zero =>
    rw [cellLoop]
    exact fun _ _ => rfl
  | succ n ih =>
    rw [cellLoop]
    exact onlyPage_trans (onlyPage_storeCell hi (by omega)) (ih (by omega) (by omega))

theorem cell_scrollCells (hi : 0 ≤ i) (hi' : i < 2000) :
    cell t (scrollCells t s) i = scrolled (cell t s) i := by
  have hkept : keptCells = 1920 := rfl
  have hread : ∀ j s', 0 ≤ j → (∀ j', j ≤ j' → cell t s' j' = cell t s j') →
      s'.memory (cellAddr t (j + numberOfCols)) = cell t s (j + 80) := by
    intro j s' _ hsame
    exact hsame (j + 80) (by omega)
  rw [scrollCells, cell_cellLoop (g := fun _ => blank) fun _ _ _ _ => rfl,
    cell_cellLoop (g := fun j => cell t s (j + 80)) hread, scrolled, hkept]
  have hrows : ((numberOfCols.toNat : Nat) : Int) = 80 := rfl
  have hcells : (((1920 : Int).toNat : Nat) : Int) = 1920 := rfl
  rw [hrows, hcells]
  by_cases hlast : i < 1920
  · rw [if_neg (by omega), if_pos (by omega), if_pos hlast]
  · rw [if_pos (by omega), if_neg hlast]

theorem onlyPage_scrollCells : OnlyPage t s (scrollCells t s) := by
  rw [scrollCells]
  exact onlyPage_trans (onlyPage_cellLoop (by decide) (by decide))
    (onlyPage_cellLoop (by decide) (by decide))

theorem cell_printNewLine (hi : 0 ≤ i) (hi' : i < 2000) : cell t (printNewLine t s) i =
    if s.screenY t + 1 = numberOfRows then scrolled (cell t s) i else cell t s i := by
  simp only [printNewLine, setY_screenY, Function.update_self]
  split
  · rw [scrollScreen, cell_setY, cell_scrollCells hi hi']
    rfl
  · rw [cell_setY]

theorem onlyPage_printNewLine : OnlyPage t s (printNewLine t s) := by
  intro a ha
  simp only [printNewLine]
  split
  · rw [scrollScreen, setY_memory, onlyPage_scrollCells a ha, setY_memory]
  · rw [setY_memory]

theorem cell_putc_newLine (hc : isNewLine c = true) (hi : 0 ≤ i) (hi' : i < 2000) :
    cell t (putc t c s) i =
      if s.screenY t + 1 = numberOfRows then scrolled (cell t s) i else cell t s i := by
  rw [putc, if_pos hc, cell_showCursor, cell_setX, cell_printNewLine hi hi']

theorem cell_putc_char (hc : isNewLine c = false) (hi : 0 ≤ i) (hi' : i < 2000) :
    cell t (putc t c s) i =
      if s.screenX t + 1 = numberOfCols ∧ s.screenY t + 1 = numberOfRows
      then scrolled (Function.update (cell t s) (cursorCell t s) c) i
      else Function.update (cell t s) (cursorCell t s) c i := by
  have hstore : cell t (setX t (s.screenX t + 1) (storeCell t (cursorCell t s) c attrib s)) =
      Function.update (cell t s) (cursorCell t s) c := by
    funext j
    rw [cell_setX, cell_storeCell, Function.update_apply]
  rw [putc, if_neg (by simp [hc])]
  simp only [cell_showCursor, cell_setY, cell_setX, setX_screenX, storeCell_screenX,
    Function.update_self]
  by_cases hend : s.screenX t + 1 = numberOfCols
  · rw [if_pos hend, cell_printNewLine hi hi', hstore]
    simp only [setX_screenY, storeCell_screenY, hend, true_and]
  · rw [if_neg hend, if_neg fun h => hend h.1, hstore]

theorem onlyPage_putc (ht : CursorInside s t) (c : UInt8) : OnlyPage t s (putc t c s) := by
  obtain ⟨hcell, hcell'⟩ := cursorInside_cell ht
  intro a ha
  have hstore := onlyPage_storeCell (t := t) (c := c) (a := attrib) (s := s) hcell hcell' a ha
  by_cases hc : isNewLine c = true
  · rw [putc, if_pos hc, showCursor_memory, setX_memory, onlyPage_printNewLine a ha]
  · rw [putc, if_neg hc]
    simp only [showCursor_memory, setY_memory, setX_memory]
    split
    · rw [onlyPage_printNewLine a ha, setX_memory, hstore]
    · rw [setX_memory, hstore]

theorem samePage_putc (ht : CursorInside s t) (hu : u ≠ t) (c : UInt8) :
    SamePage u s (putc t c s) := by
  have hpage := onlyPage_putc ht c
  obtain ⟨hx, hx', hy, hy'⟩ := ht
  refine ⟨fun a hlo hhi => hpage a (pages_apart hu hlo hhi), ?_, ?_⟩
  · by_cases hc : isNewLine c = true
    · rw [(putc_newLine_cursor hc).1, Function.update_of_ne hu]
    · rw [(putc_char_cursor (by simpa using hc) hx hx' hy hy').1, Function.update_of_ne hu]
  · by_cases hc : isNewLine c = true
    · rw [(putc_newLine_cursor hc).2, Function.update_of_ne hu]
    · rw [(putc_char_cursor (by simpa using hc) hx hx' hy hy').2, Function.update_of_ne hu]

end RedstoneOS.ScreenCells
