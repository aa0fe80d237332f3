import RedstoneOS.Keyboard

namespace RedstoneOS.CursorBounds

open Screen Library.Runs
open Keyboard (Event beforeClear)

variable {s : Screen.State} {k : Keyboard.State} {t : Fin 3} {c a : UInt8} {i : Int} {n : Nat}

def CursorInside (s : Screen.State) (t : Fin 3) : Prop :=
  0 ≤ s.screenX t ∧ s.screenX t < 80 ∧ 0 ≤ s.screenY t ∧ s.screenY t < 25

def InPage (w : Store) : Prop :=
  pageAddr w.terminal ≤ w.address ∧ w.address < pageAddr w.terminal + 4000

instance (w : Store) : Decidable (InPage w) := inferInstanceAs (Decidable (_ ∧ _))

def StoresInside (s : Screen.State) : Prop := ∀ w ∈ s.stores, InPage w

structure Inside (s : Screen.State) : Prop where
  cursors : ∀ t, CursorInside s t
  stores : StoresInside s

/-- A Backspace that erases finds the displayed cursor behind the first cell. -/
def EraseInside (k : Keyboard.State) : Event → Prop
  | .scancode c => c = Keyboard.backspacePress → 0 < k.input.keyBuffSize k.terminalId →
      ¬ (k.screen.screenX k.terminalId = 0 ∧ k.screen.screenY k.terminalId = 0)
  | _ => True

theorem cursorInside_cell (h : CursorInside s t) :
    0 ≤ cursorCell t s ∧ cursorCell t s < 2000 := by
  obtain ⟨hx, hx', hy, hy'⟩ := h
  simp only [cursorCell, numberOfCols]
  omega

theorem storesInside_storeCell (h : StoresInside s) (hi : 0 ≤ i) (hi' : i < 2000) :
    StoresInside (storeCell t i c a s) := by
  intro w hw
  simp only [storeCell, store, List.mem_cons] at hw
  obtain rfl | rfl | hw := hw
  · simp only [InPage, cellAddr]
    omega
  · simp only [InPage, cellAddr]
    omega
  · exact h w hw

theorem storesInside_cellLoop {f : Int → Screen.State → UInt8} (h : StoresInside s) (hi : 0 ≤ i)
    (hn : i + n ≤ 2000) : StoresInside (cellLoop t f i n s) := by
  induction n generalizing i s with
  | zero =>
    rw [cellLoop]
    exact h
  | succ n ih =>
    rw [cellLoop]
    exact ih (storesInside_storeCell h hi (by omega)) (by omega) (by omega)

theorem storesInside_scrollCells (h : StoresInside s) : StoresInside (scrollCells t s) := by
  unfold scrollCells
  refine storesInside_cellLoop (storesInside_cellLoop h ?_ ?_) ?_ ?_ <;> decide

theorem storesInside_scrollScreen (h : StoresInside s) : StoresInside (scrollScreen t s) := by
  have hs := storesInside_scrollCells (t := t) h
  unfold StoresInside at hs ⊢
  rw [scrollScreen, setY_stores]
  exact hs

theorem storesInside_printNewLine (h : StoresInside s) : StoresInside (printNewLine t s) := by
  have hy : StoresInside (setY t (s.screenY t + 1) s) := h
  simp only [printNewLine]
  split
  · exact storesInside_scrollScreen hy
  · exact hy

theorem storesInside_putc (h : StoresInside s) (ht : CursorInside s t) :
    StoresInside (putc t c s) := by
  obtain ⟨hcell, hcell'⟩ := cursorInside_cell ht
  have hc := storesInside_storeCell (t := t) (c := c) (a := attrib) h hcell hcell'
  unfold putc
  split
  · exact storesInside_printNewLine (t := t) h
  · dsimp only
    split
    · exact storesInside_printNewLine (t := t)
        (s := setX t (s.screenX t + 1) (storeCell t (cursorCell t s) c attrib s)) hc
    · exact hc

theorem cursors_update {s' : Screen.State} {x y : Int} (h : ∀ u, CursorInside s u)
    (hsx : s'.screenX = Function.update s.screenX t x)
    (hsy : s'.screenY = Function.update s.screenY t y)
    (hx : 0 ≤ x ∧ x < 80) (hy : 0 ≤ y ∧ y < 25) (u : Fin 3) : CursorInside s' u := by
  unfold CursorInside
  rw [hsx, hsy]
  by_cases hu : u = t
  · subst hu
    simp only [Function.update_self]
    exact ⟨hx.1, hx.2, hy⟩
  · simp only [Function.update_of_ne hu]
    exact h u

theorem inside_putc (h : Inside s) (t : Fin 3) (c : UInt8) : Inside (putc t c s) := by
  refine ⟨fun u => ?_, storesInside_putc h.stores (h.cursors t)⟩
  obtain ⟨hx, hx', hy, hy'⟩ := h.cursors t
  have hrow := rowBelow_bounds hy hy'
  by_cases hc : isNewLine c = true
  · obtain ⟨hsx, hsy⟩ := putc_newLine_cursor (s := s) (t := t) hc
    exact cursors_update h.cursors hsx hsy (by decide) hrow u
  · obtain ⟨hsx, hsy⟩ := putc_char_cursor (by simpa using hc) hx hx' hy hy'
    refine cursors_update h.cursors hsx hsy ?_ ?_ u
    · have hcols : numberOfCols = 80 := rfl
      split <;> omega
    · split
      · exact hrow
      · exact ⟨hy, hy'⟩

theorem storesInside_clear (h : StoresInside s) : StoresInside (clear t s) := by
  have hs : StoresInside (cellLoop t (fun _ _ => blank) 0 (numberOfRows * numberOfCols).toNat s) :=
    storesInside_cellLoop h (by decide) (by decide)
  unfold StoresInside at hs ⊢
  rw [clear, updateCursor_stores, setY_stores, setX_stores]
  exact hs

theorem clear_cursor : (clear t s).screenX = Function.update s.screenX t 0 ∧
    (clear t s).screenY = Function.update s.screenY t 0 := by
  constructor
  · rw [clear, updateCursor_screenX, setY_screenX, setX_screenX, cellLoop_screenX]
  · rw [clear, updateCursor_screenY, setY_screenY, setX_screenY, cellLoop_screenY]

theorem inside_clear (h : ∀ u, u ≠ t → CursorInside s u) (hs : StoresInside s) :
    Inside (clear t s) := by
  refine ⟨fun u => ?_, storesInside_clear hs⟩
  unfold CursorInside
  rw [clear_cursor.1, clear_cursor.2]
  by_cases hu : u = t
  · subst hu
    simp only [Function.update_self]
    decide
  · simp only [Function.update_of_ne hu]
    exact h u hu

theorem inside_stepBack (h : Inside s) (ht : ¬ (s.screenX t = 0 ∧ s.screenY t = 0)) :
    Inside (stepBack t s) := by
  obtain ⟨hx, hx', hy, hy'⟩ := h.cursors t
  unfold stepBack
  split
  next h0 =>
    refine ⟨cursors_update h.cursors (t := t) rfl rfl (by decide) ?_, h.stores⟩
    have hrow : s.screenY t ≠ 0 := fun hy0 => ht ⟨h0, hy0⟩
    omega
  next h0 =>
    have hsame : s.screenY = Function.update s.screenY t (s.screenY t) :=
      (Function.update_eq_self t s.screenY).symm
    refine ⟨cursors_update h.cursors (t := t) rfl hsame ?_ ⟨hy, hy'⟩, h.stores⟩
    omega

theorem inside_backspace (h : Inside s) (ht : ¬ (s.screenX t = 0 ∧ s.screenY t = 0)) :
    Inside (backspace t s) := by
  have hback := inside_stepBack h ht
  obtain ⟨hcell, hcell'⟩ := cursorInside_cell (hback.cursors t)
  exact ⟨hback.cursors,
    storesInside_storeCell (c := blank) (a := attrib) hback.stores hcell hcell'⟩

theorem backspace_first_cell (hx : s.screenX t = 0) (hy : s.screenY t = 0) :
    (backspace t s).screenY t = -1 := by
  simp [backspace, stepBack, hx, hy]

theorem inside_switchTerminal (h : Inside k.screen) (target : Fin 3) :
    Inside (Keyboard.switchTerminal target k).screen :=
  ⟨h.cursors, storesInside_storeCell (t := k.terminalId) h.stores (by decide) (by decide)⟩

theorem inside_switchOnAlt (h : Inside k.screen) (scancode : UInt8) :
    Inside (Keyboard.switchOnAlt scancode k).screen := by
  unfold Keyboard.switchOnAlt
  split
  · split
    · exact inside_switchTerminal h _
    · exact h
  · exact h

theorem inside_typeKey (h : Inside k.screen) (key : UInt8) :
    Inside (Keyboard.typeKey key k).screen := by
  unfold Keyboard.typeKey
  split
  · exact h
  · exact inside_putc h _ key

theorem inside_enterKey (h : Inside k.screen) (key : UInt8) :
    Inside (Keyboard.enterKey key k).screen := inside_putc h _ key

theorem inside_editLine (h : Inside k.screen) {scancode : UInt8} (key : UInt8)
    (hscan : scancode ≠ Keyboard.backspacePress) :
    Inside (Keyboard.editLine scancode key k).screen := by
  simp only [Keyboard.editLine, if_neg hscan]
  have htype : Inside (if Keyboard.Printable scancode key then Keyboard.typeKey key k
      else k).screen := by
    split
    · exact inside_typeKey h key
    · exact h
  split
  · exact inside_enterKey htype key
  · exact htype

theorem inside_eraseKey (h : Inside k.screen)
    (he : EraseInside k (.scancode Keyboard.backspacePress)) :
    Inside (Keyboard.eraseKey k).screen := by
  unfold Keyboard.eraseKey
  split
  next hsize => exact inside_backspace h (he rfl hsize)
  next => exact h

theorem inside_keyboardHandler (h : Inside k.screen) {scancode : UInt8}
    (he : EraseInside k (.scancode scancode)) :
    Inside (Keyboard.keyboardHandler scancode k).screen := by
  by_cases hscan : scancode = Keyboard.backspacePress
  · subst hscan
    rw [Keyboard.keyboardHandler_backspace]
    exact inside_eraseKey h he
  · have hswitch := inside_switchOnAlt (k := { k with
      modifiers := Keyboard.pressModifiers scancode k.modifiers }) h scancode
    unfold Keyboard.keyboardHandler
    dsimp only
    split
    · exact hswitch
    · split
      · exact inside_clear (fun u _ => hswitch.cursors u) hswitch.stores
      · split
        · exact hswitch
        · exact inside_editLine hswitch _ hscan

theorem inside_writes (h : Inside k.screen) (runningTerminal : Bool) (bytes : List UInt8) :
    Inside (bytes.foldl (fun k a => Keyboard.putc a runningTerminal k) k).screen := by
  induction bytes generalizing k with
  | nil => exact h
  | cons a bytes ih => exact ih (k := Keyboard.putc a runningTerminal k) (inside_putc h _ a)

theorem inside_step (h : Inside k.screen) {e : Event} (he : EraseInside k e) :
    Inside (Keyboard.step k e).screen := by
  cases e with
  | scancode c => exact inside_keyboardHandler h he
  | putc c runningTerminal => exact inside_putc h _ c
  | puts string runningTerminal => exact inside_writes h runningTerminal _
  | terminalWrite buf nbytes =>
    simp only [Keyboard.step, Keyboard.terminalWrite]
    split
    · exact h
    · split
      · exact h
      · rw [Keyboard.terminalWriteLoop_eq]
        exact inside_writes h false _
  | tick => exact h

theorem step_outside {e : Event} (he : ¬ EraseInside k e) :
    ¬ Inside (Keyboard.step k e).screen := by
  cases e with
  | scancode c =>
    simp only [EraseInside, Classical.not_imp, not_not] at he
    obtain ⟨rfl, hsize, hx, hy⟩ := he
    intro h
    have hrow := (h.cursors k.terminalId).2.2.1
    rw [Keyboard.step, Keyboard.keyboardHandler_backspace, Keyboard.eraseKey, if_pos hsize] at hrow
    rw [show (Keyboard.onInput TerminalInput.backspacePressed (Keyboard.onScreen
      (backspace k.terminalId) k)).screen = backspace k.terminalId k.screen from rfl,
      backspace_first_cell hx hy] at hrow
    omega
  | putc | puts | terminalWrite | tick => exact absurd trivial he

/-- From a clear screen on, the cursors and the stores stay on the screen exactly as long as no
Backspace erases from the first cell. -/
theorem cursor_inside_iff (k : Keyboard.State)
    (hcursors : ∀ t, t ≠ k.terminalId → CursorInside k.screen t) (hstores : k.screen.stores = [])
    (es : List Event) :
    (∀ pre, pre <+: es → Inside (run Keyboard.step (Keyboard.clear k) pre).screen) ↔
      Along Keyboard.step EraseInside (Keyboard.clear k) es := by
  have hstart : Inside (Keyboard.clear k).screen := by
    rw [Keyboard.clear_screen]
    exact inside_clear hcursors (fun w hw => by simp [hstores] at hw)
  exact observed_iff_along (D := fun _ _ => True)
    (J := fun k : Keyboard.State => Inside k.screen) (P := fun k : Keyboard.State => Inside k.screen)
    (fun _ _ h _ he => inside_step h he) (fun _ h => h) (fun _ _ _ _ he => step_outside he) hstart
    (along_of_forall (fun _ _ => trivial) _ es)

theorem beforeClear_inside (memory : Int → UInt8) (t : Fin 3) :
    CursorInside (beforeClear memory).screen t := by
  simp [CursorInside, beforeClear]

theorem cursor_inside_typed :
    Inside (run Keyboard.step (Keyboard.clear (beforeClear fun _ => 0))
      [.scancode 0x1E, .scancode 0x0E]).screen := by
  have hcover : Along Keyboard.step EraseInside (Keyboard.clear (beforeClear fun _ => 0))
      [.scancode 0x1E, .scancode 0x0E] :=
    ⟨fun h => absurd h (by decide), fun _ _ => by decide +kernel, trivial⟩
  exact (cursor_inside_iff (beforeClear fun _ => 0) (fun t _ => beforeClear_inside _ t) rfl
    [.scancode 0x1E, .scancode 0x0E]).mpr hcover _ (List.prefix_refl _)

def clearedMidLine : List Event :=
  [.scancode 0x1E, .scancode 0x1D, .scancode 0x26, .scancode 0x9D, .scancode 0x0E]

theorem cursor_left_screen :
    let k := run Keyboard.step (Keyboard.clear (beforeClear fun _ => 0)) clearedMidLine
    k.screen.screenY ⟨0, by decide⟩ = -1 ∧ ⟨⟨0, by decide⟩, 0xB7FFE⟩ ∈ k.screen.stores ∧
      ¬ InPage ⟨⟨0, by decide⟩, 0xB7FFE⟩ := by
  decide +kernel

end RedstoneOS.CursorBounds
