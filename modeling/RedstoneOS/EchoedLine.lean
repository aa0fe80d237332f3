import RedstoneOS.ConsoleOutput
import RedstoneOS.LineEditor

namespace RedstoneOS.EchoedLine

open Screen (blank cursorCell isNewLine numberOfCols numberOfRows)
open Keyboard CursorBounds ScreenCells LineEditor Library.Runs
open TerminalInput (buffSizeLimit)
open TerminalSwitch (handle)

def Elsewhere (k : State) : Prop :=
  k.currentTerminalId ≠ k.terminalId ∧ CursorInside k.screen k.currentTerminalId

/-- The line is typed and corrected, and nothing else is written on the displayed terminal. -/
def Typing (k : State) : Event → Prop
  | .scancode c => NoSwitch k c ∧ keyOf c (pressModifiers c k.modifiers) ≠ .enter ∧
      keyOf c (pressModifiers c k.modifiers) ≠ .clear
  | .putc _ runningTerminal => runningTerminal = false ∧ Elsewhere k
  | .puts _ runningTerminal => runningTerminal = false ∧ Elsewhere k
  | .terminalWrite _ _ => Elsewhere k
  | .tick => True

def printNewLineScrolls (t : Fin 3) (s : Screen.State) : Nat :=
  if (Screen.setY t (s.screenY t + 1) s).screenY t = numberOfRows then 1 else 0

def putcScrolls (t : Fin 3) (c : UInt8) (s : Screen.State) : Nat :=
  if isNewLine c then printNewLineScrolls t s
  else
    let s := Screen.storeCell t (cursorCell t s) c Screen.attrib s
    let s := Screen.setX t (s.screenX t + 1) s
    if s.screenX t = numberOfCols then printNewLineScrolls t s else 0

def keyScrolls (k : State) : Key → Nat
  | .printable c =>
    if k.input.keyBuffSize k.terminalId = buffSizeLimit then 0
    else putcScrolls k.terminalId c k.screen
  | .enter => putcScrolls k.terminalId 10 k.screen
  | .backspace => 0
  | .clear => 0
  | .other => 0

def scrolls (k : State) : Event → Nat
  | .scancode c => keyScrolls k (keyOf c (pressModifiers c k.modifiers))
  | .putc _ _ => 0
  | .puts _ _ => 0
  | .terminalWrite _ _ => 0
  | .tick => 0

def scrollsIn (k : State) : List Event → Nat
  | [] => 0
  | e :: es => scrolls k e + scrollsIn (step k e) es

def AtLastCell (k : State) : Prop :=
  k.screen.screenX k.terminalId + 1 = numberOfCols ∧ k.screen.screenY k.terminalId + 1 = numberOfRows

instance (k : State) : Decidable (AtLastCell k) := inferInstanceAs (Decidable (_ ∧ _))

/-- From cell `start` of the displayed page to the cursor stands what is in `key_buf`. -/
structure Echoed (d : Fin 3) (start : Int) (k : State) : Prop where
  displayed : k.terminalId = d
  cursor : CursorInside k.screen d
  onPage : 0 ≤ start
  short : k.input.keyBuffSize d ≤ buffSizeLimit
  count : cursorCell d k.screen - start = k.input.keyBuffSize d
  cells : ∀ i : Nat, i < k.input.keyBuffSize d → cell d k.screen (start + i) = k.input.keyBuf d i

variable {k : State} {d u : Fin 3} {start : Int} {e : Event} {c : UInt8}

theorem echoed_of_same {k' : State} (h : Echoed d start k) (hinput : k'.input = k.input)
    (hpage : ∀ i, 0 ≤ i → i < 2000 → cell d k'.screen i = cell d k.screen i)
    (hx : k'.screen.screenX d = k.screen.screenX d)
    (hy : k'.screen.screenY d = k.screen.screenY d) : Echoed d start k' := by
  have hcell : cursorCell d k'.screen = cursorCell d k.screen := by
    simp only [cursorCell, hx, hy]
  have hcount := h.count
  have hon := h.onPage
  obtain ⟨-, hlast⟩ := cursorInside_cell h.cursor
  refine ⟨?_, ?_, hon, ?_, ?_, fun i hi => ?_⟩
  · rw [State.terminalId, hinput]
    exact h.displayed
  · rw [CursorInside, hx, hy]
    exact h.cursor
  · rw [hinput]
    exact h.short
  · rw [hinput, hcell]
    exact hcount
  · rw [hinput] at hi ⊢
    rw [hpage _ (by omega) (by omega)]
    exact h.cells i hi

theorem cell_samePage {s s' : Screen.State} (h : SamePage u s s') {i : Int} (hi : 0 ≤ i)
    (hi' : i < 2000) : cell u s' i = cell u s i := by
  refine h.memory _ ?_ ?_
  · simp only [Screen.cellAddr]
    omega
  · simp only [Screen.cellAddr, Screen.sizeOfScreen]
    omega

theorem echoed_samePage {k' : State} (h : Echoed d start k) (hinput : k'.input = k.input)
    (hpage : SamePage d k.screen k'.screen) : Echoed d start k' :=
  echoed_of_same h hinput (fun _ hi hi' => cell_samePage hpage hi hi') hpage.x hpage.y

theorem cursorCell_putc {s : Screen.State} (ht : CursorInside s d) (hc : isNewLine c = false) :
    cursorCell d (Screen.putc d c s) = if s.screenX d + 1 = numberOfCols ∧
      s.screenY d + 1 = numberOfRows then 1920 else cursorCell d s + 1 := by
  obtain ⟨hx, hx', hy, hy'⟩ := ht
  obtain ⟨hsx, hsy⟩ := Screen.putc_char_cursor (s := s) (t := d) hc hx hx' hy hy'
  simp only [cursorCell, hsx, hsy, Function.update_self]
  by_cases hend : s.screenX d + 1 = numberOfCols
  · rw [if_pos hend, if_pos hend, Screen.rowBelow]
    by_cases hlast : s.screenY d + 1 = numberOfRows
    · rw [if_pos hlast, if_pos ⟨hend, hlast⟩]
      rfl
    · rw [if_neg hlast, if_neg fun h => hlast h.2]
      simp only [numberOfCols] at hend ⊢
      omega
  · rw [if_neg hend, if_neg hend, if_neg fun h => hend h.1]
    omega

theorem not_newLine (hlo : 32 ≤ c) : isNewLine c = false := by
  have hten : c ≠ 10 := by
    rintro rfl
    exact absurd hlo (by decide)
  have hthirteen : c ≠ 13 := by
    rintro rfl
    exact absurd hlo (by decide)
  simp [isNewLine, hten, hthirteen]

theorem typeKey_full (h : k.input.keyBuffSize k.terminalId = buffSizeLimit) : typeKey c k = k := by
  rw [typeKey, if_pos h]

theorem typeKey_screen (h : k.input.keyBuffSize k.terminalId ≠ buffSizeLimit) :
    (typeKey c k).screen = Screen.putc k.terminalId c k.screen := by
  have hterminal := inputAct_terminalId (.printable c) k.input
  rw [typeKey, if_neg h]
  change Screen.putc (inputAct (.printable c) k.input).terminalId c k.screen = _
  rw [hterminal]

theorem typeKey_input (hc : 32 ≤ c ∧ c ≤ 126)
    (h : k.input.keyBuffSize k.terminalId ≠ buffSizeLimit) :
    (typeKey c k).input = { k.input with
      keyBuf := Function.update k.input.keyBuf k.terminalId
        (Function.update (k.input.keyBuf k.terminalId) (k.input.keyBuffSize k.terminalId) c)
      keyBuffSize := Function.update k.input.keyBuffSize k.terminalId
        (k.input.keyBuffSize k.terminalId + 1)
      typed := Function.update k.input.typed k.terminalId (k.input.typed k.terminalId ++ [c]) } := by
  have hinput := act_input (.printable c) k
  rw [inputAct, TerminalInput.keyPressed] at hinput
  rw [if_pos ⟨hc.1, hc.2, h⟩] at hinput
  exact hinput

theorem keyScrolls_printable (hc : isNewLine c = false) : keyScrolls k (.printable c) =
    if k.input.keyBuffSize k.terminalId ≠ buffSizeLimit ∧ AtLastCell k then 1 else 0 := by
  by_cases hfull : k.input.keyBuffSize k.terminalId = buffSizeLimit
  · rw [keyScrolls, if_pos hfull, if_neg fun h => h.1 hfull]
  · have hnew : ¬ isNewLine c = true := by simp [hc]
    rw [keyScrolls, if_neg hfull, putcScrolls, if_neg hnew]
    simp only [printNewLineScrolls, Screen.setX_screenX, Screen.setX_screenY, Screen.setY_screenY,
      Screen.storeCell_screenX, Screen.storeCell_screenY, Function.update_self, AtLastCell, hfull,
      ne_eq, not_false_eq_true, true_and, ite_and]

theorem echoed_extend {start' : Int} (h : Echoed d start k)
    (hc : 32 ≤ c ∧ c ≤ 126) (hroom : k.input.keyBuffSize d ≠ buffSizeLimit) (hon : 0 ≤ start')
    (hcursor : CursorInside (typeKey c k).screen d)
    (hcount : cursorCell d (typeKey c k).screen = start' + k.input.keyBuffSize d + 1)
    (hcells : ∀ i : Nat, i ≤ k.input.keyBuffSize d → cell d (typeKey c k).screen (start' + i) =
      if i = k.input.keyBuffSize d then c else cell d k.screen (start + i)) :
    Echoed d start' (typeKey c k) := by
  obtain ⟨rfl, -, -, hshort, -, hold⟩ := h
  have hinput := typeKey_input hc hroom
  refine ⟨?_, hcursor, hon, ?_, ?_, fun i hi => ?_⟩
  · rw [State.terminalId, hinput]
  · rw [hinput]
    simp only [Function.update_self]
    omega
  · rw [hcount, hinput]
    simp only [Function.update_self]
    omega
  · rw [hinput] at hi ⊢
    simp only [Function.update_self] at hi ⊢
    rw [hcells i (by omega)]
    by_cases hlast : i = k.input.keyBuffSize k.terminalId
    · rw [if_pos hlast, hlast, Function.update_self]
    · rw [if_neg hlast, Function.update_of_ne hlast]
      exact hold i (by omega)

theorem echoed_typeKey (h : Echoed d start k) (hc : 32 ≤ c ∧ c ≤ 126) :
    Echoed d (start - 80 * keyScrolls k (.printable c)) (typeKey c k) := by
  have hsame := h
  have hline := not_newLine hc.1
  obtain ⟨rfl, hcursor, hon, hshort, hcount, -⟩ := h
  by_cases hfull : k.input.keyBuffSize k.terminalId = buffSizeLimit
  · have hstart : start - 80 * (keyScrolls k (.printable c) : Int) = start := by
      rw [keyScrolls_printable hline, if_neg fun h => h.1 hfull]
      omega
    rw [typeKey_full hfull, hstart]
    exact hsame
  · have hlimit : buffSizeLimit = 127 := rfl
    have hscreen := typeKey_screen (c := c) hfull
    have hinside := ConsoleOutput.cursorInside_putc hcursor c
    have hcell := cursorCell_putc hcursor hline
    obtain ⟨hfirst, hlast⟩ := cursorInside_cell hcursor
    by_cases hend : AtLastCell k
    · have hstart : start - 80 * (keyScrolls k (.printable c) : Int) = start - 80 := by
        rw [keyScrolls_printable hline, if_pos ⟨hfull, hend⟩]
        omega
      have hcorner : cursorCell k.terminalId k.screen = 1999 := by
        obtain ⟨hx, hy⟩ := hend
        simp only [numberOfCols, numberOfRows, cursorCell] at hx hy ⊢
        omega
      rw [AtLastCell] at hend
      rw [if_pos hend] at hcell
      rw [hstart]
      refine echoed_extend hsame hc hfull (by omega) (by rw [hscreen]; exact hinside) ?_ ?_
      · rw [hscreen, hcell]
        omega
      · intro i hi
        rw [hscreen, cell_putc_char hline (by omega) (by omega), if_pos hend, scrolled,
          if_pos (by omega), Function.update_apply, hcorner]
        have hplace : start - 80 + (i : Int) + 80 = start + i := by omega
        have hnew : (start + (i : Int) = 1999) ↔ i = k.input.keyBuffSize k.terminalId := by omega
        rw [hplace]
        simp only [hnew]
    · have hstart : start - 80 * (keyScrolls k (.printable c) : Int) = start := by
        rw [keyScrolls_printable hline, if_neg fun h => hend h.2]
        omega
      rw [AtLastCell] at hend
      rw [if_neg hend] at hcell
      rw [hstart]
      refine echoed_extend hsame hc hfull hon (by rw [hscreen]; exact hinside) ?_ ?_
      · rw [hscreen, hcell]
        omega
      · intro i hi
        rw [hscreen, cell_putc_char hline (by omega) (by omega), if_neg hend,
          Function.update_apply]
        have hnew : (start + (i : Int) = cursorCell k.terminalId k.screen) ↔
            i = k.input.keyBuffSize k.terminalId := by omega
        simp only [hnew]

theorem cursorCell_stepBack {s : Screen.State} :
    cursorCell d (Screen.stepBack d s) = cursorCell d s - 1 := by
  rw [Screen.stepBack]
  split
  next hx =>
    simp only [cursorCell, Screen.setX_screenX, Screen.setX_screenY, Screen.setY_screenY,
      Function.update_self, hx, numberOfCols]
    omega
  next hx =>
    simp only [cursorCell, Screen.setX_screenX, Screen.setX_screenY, Function.update_self]
    omega

theorem cursorCell_backspace {s : Screen.State} :
    cursorCell d (Screen.backspace d s) = cursorCell d s - 1 := by
  rw [← cursorCell_stepBack (d := d) (s := s)]
  rfl

theorem cell_backspace {s : Screen.State} (i : Int) : cell d (Screen.backspace d s) i =
    if i = cursorCell d s - 1 then blank else cell d s i := by
  have hback : cell d (Screen.stepBack d s) i = cell d s i := by
    rw [Screen.stepBack]
    split <;> rfl
  rw [Screen.backspace, cell_showCursor, cell_storeCell, cursorCell_stepBack, hback]

theorem cursorInside_backspace {s : Screen.State} (ht : CursorInside s d)
    (hfirst : 0 < cursorCell d s) : CursorInside (Screen.backspace d s) d := by
  have hsame : CursorInside (Screen.stepBack d s) d := by
    obtain ⟨hx, hx', hy, hy'⟩ := ht
    simp only [cursorCell, numberOfCols] at hfirst
    rw [Screen.stepBack]
    split
    next h0 =>
      refine ⟨?_, ?_, ?_, ?_⟩ <;> simp [numberOfCols] <;> omega
    next h0 =>
      refine ⟨?_, ?_, ?_, ?_⟩ <;> simp <;> omega
  exact hsame

theorem eraseKey_screen (h : 0 < k.input.keyBuffSize k.terminalId) :
    (eraseKey k).screen = Screen.backspace k.terminalId k.screen := by
  rw [eraseKey, if_pos h]
  rfl

theorem eraseKey_input (h : 0 < k.input.keyBuffSize k.terminalId) :
    (eraseKey k).input = { k.input with
      keyBuf := Function.update k.input.keyBuf k.terminalId
        (Function.update (k.input.keyBuf k.terminalId) (k.input.keyBuffSize k.terminalId - 1) 0)
      keyBuffSize := Function.update k.input.keyBuffSize k.terminalId
        (k.input.keyBuffSize k.terminalId - 1)
      typed := Function.update k.input.typed k.terminalId (k.input.typed k.terminalId).dropLast } := by
  rw [eraseKey, if_pos h]
  change TerminalInput.backspacePressed k.input = _
  rw [TerminalInput.backspacePressed, if_pos h]

theorem echoed_eraseKey (h : Echoed d start k) : Echoed d start (eraseKey k) := by
  have hsame := h
  obtain ⟨rfl, hcursor, hon, hshort, hcount, hcells⟩ := h
  by_cases hsome : 0 < k.input.keyBuffSize k.terminalId
  · have hscreen := eraseKey_screen hsome
    have hinput := eraseKey_input hsome
    refine ⟨?_, ?_, hon, ?_, ?_, fun i hi => ?_⟩
    · rw [State.terminalId, hinput]
    · rw [hscreen]
      exact cursorInside_backspace hcursor (by omega)
    · rw [hinput]
      simp only [Function.update_self]
      omega
    · rw [hscreen, cursorCell_backspace, hinput]
      simp only [Function.update_self]
      omega
    · rw [hinput] at hi ⊢
      simp only [Function.update_self] at hi ⊢
      rw [hscreen, cell_backspace, if_neg (by omega), Function.update_of_ne (by omega)]
      exact hcells i (by omega)
  · rw [eraseKey, if_neg hsome]
    exact hsame

theorem cell_eraseKey (hsome : 0 < k.input.keyBuffSize k.terminalId) :
    cell k.terminalId (eraseKey k).screen (cursorCell k.terminalId (eraseKey k).screen) = blank := by
  rw [eraseKey_screen hsome, cell_backspace, cursorCell_backspace, if_pos rfl]

/-- A key of the line, whatever the modifiers are. -/
theorem echoed_handle (h : Echoed d start k) (hkey : Typing k (.scancode c)) :
    Echoed d (start - 80 * scrolls k (.scancode c)) (handle k c) := by
  obtain ⟨hswitch, henter, hclear⟩ := hkey
  have hmod : Echoed d start { k with modifiers := pressModifiers c k.modifiers } :=
    echoed_of_same h rfl (fun _ _ _ => rfl) rfl rfl
  have hnone : start - 80 * ((0 : Nat) : Int) = start := by omega
  rw [handle_eq hswitch, scrolls]
  cases hclass : keyOf c (pressModifiers c k.modifiers) with
  | printable a => exact echoed_typeKey hmod (keyOf_printable hclass)
  | backspace =>
    rw [keyScrolls, hnone]
    exact echoed_eraseKey hmod
  | enter => exact absurd hclass henter
  | clear => exact absurd hclass hclear
  | other =>
    rw [keyScrolls, hnone]
    exact hmod

theorem echoed_writes (bytes : List UInt8) (h : Echoed d start k)
    (hcurrent : k.currentTerminalId ≠ d) (hinside : CursorInside k.screen k.currentTerminalId) :
    Echoed d start (bytes.foldl (fun k a => putc a false k) k) := by
  induction bytes generalizing k with
  | nil => exact h
  | cons a bytes ih =>
    have hpage := samePage_putc hinside hcurrent.symm a
    have hput : Echoed d start (putc a false k) := echoed_samePage h rfl hpage
    exact ih hput hcurrent (ConsoleOutput.cursorInside_putc hinside a)

theorem echoed_step (h : Echoed d start k) (he : Typing k e) :
    Echoed d (start - 80 * scrolls k e) (step k e) := by
  have hnone : start - 80 * ((0 : Nat) : Int) = start := by omega
  have hd := h.displayed
  cases e with
  | scancode c => exact echoed_handle h he
  | putc a runningTerminal =>
    obtain ⟨rfl, hcurrent, hinside⟩ := he
    rw [hd] at hcurrent
    rw [scrolls, hnone]
    exact echoed_writes [a] h hcurrent hinside
  | puts string runningTerminal =>
    obtain ⟨rfl, hcurrent, hinside⟩ := he
    rw [hd] at hcurrent
    rw [scrolls, hnone]
    exact echoed_writes _ h hcurrent hinside
  | terminalWrite buf nbytes =>
    obtain ⟨hcurrent, hinside⟩ := he
    rw [hd] at hcurrent
    rw [scrolls, hnone]
    simp only [step, terminalWrite]
    split
    · exact h
    · split
      · exact h
      · rw [terminalWriteLoop_eq]
        exact echoed_writes _ h hcurrent hinside
  | tick =>
    rw [scrolls, hnone]
    exact ⟨hd, h.cursor, h.onPage, h.short, h.count, h.cells⟩

theorem echoed_run (h : Echoed d start k) {es : List Event} (hes : Along step Typing k es) :
    Echoed d (start - 80 * scrollsIn k es) (run step k es) := by
  induction es generalizing k start with
  | nil =>
    rw [scrollsIn, run_nil]
    have hnone : start - 80 * ((0 : Nat) : Int) = start := by omega
    rw [hnone]
    exact h
  | cons e es ih =>
    have hrest := ih (echoed_step h hes.1) hes.2
    have hsum : start - 80 * ((scrolls k e + scrollsIn (step k e) es : Nat) : Int) =
        start - 80 * scrolls k e - 80 * scrollsIn (step k e) es := by omega
    rw [scrollsIn, run_cons, hsum]
    exact hrest

/-- While a line is typed and corrected, the displayed page has it between the cell where it was
begun, moved up with the page, and the cursor. What a Backspace has left is blank. -/
theorem echoed_line (hempty : k.input.keyBuffSize k.terminalId = 0)
    (hcursor : CursorInside k.screen k.terminalId) {es : List Event}
    (hes : Along step Typing k es) :
    Echoed k.terminalId (cursorCell k.terminalId k.screen - 80 * scrollsIn k es) (run step k es) ∧
      ∀ pre, es = pre ++ [.scancode backspacePress] →
        0 < (run step k pre).input.keyBuffSize k.terminalId →
          cell k.terminalId (run step k es).screen
            (cursorCell k.terminalId (run step k es).screen) = blank := by
  have hstart : Echoed k.terminalId (cursorCell k.terminalId k.screen) k := by
    refine ⟨rfl, hcursor, (cursorInside_cell hcursor).1, ?_, ?_, fun i hi => ?_⟩
    · rw [hempty]
      exact Nat.zero_le _
    · rw [hempty]
      omega
    · rw [hempty] at hi
      exact absurd hi (Nat.not_lt_zero i)
  refine ⟨echoed_run hstart hes, ?_⟩
  rintro pre rfl hsome
  have hpre := echoed_run hstart (along_append k pre _ |>.mp hes).1
  have hd : k.terminalId = (run step k pre).terminalId := hpre.displayed.symm
  rw [run_concat, step, keyboardHandler_backspace]
  rw [hd] at hsome ⊢
  exact cell_eraseKey hsome

def cornerKeys : List Event := [.scancode 0x1E, .scancode 0x1E, .scancode backspacePress]

theorem echoed_line_corner :
    ConsoleOutput.lastCell.input.keyBuffSize ConsoleOutput.lastCell.terminalId = 0 ∧
    CursorInside ConsoleOutput.lastCell.screen ConsoleOutput.lastCell.terminalId ∧
    Along step Typing ConsoleOutput.lastCell cornerKeys ∧
    Echoed ConsoleOutput.lastCell.terminalId
        (cursorCell ConsoleOutput.lastCell.terminalId ConsoleOutput.lastCell.screen -
          80 * scrollsIn ConsoleOutput.lastCell cornerKeys)
        (run step ConsoleOutput.lastCell cornerKeys) ∧
      ∀ pre, cornerKeys = pre ++ [.scancode backspacePress] →
        0 < (run step ConsoleOutput.lastCell pre).input.keyBuffSize
            ConsoleOutput.lastCell.terminalId →
          cell ConsoleOutput.lastCell.terminalId (run step ConsoleOutput.lastCell cornerKeys).screen
            (cursorCell ConsoleOutput.lastCell.terminalId
              (run step ConsoleOutput.lastCell cornerKeys).screen) = blank := by
  have hcursor : CursorInside ConsoleOutput.lastCell.screen ConsoleOutput.lastCell.terminalId :=
    ⟨by decide, by decide, by decide, by decide⟩
  have halong : Along step Typing ConsoleOutput.lastCell cornerKeys := by
    refine ⟨⟨fun h => absurd h.1 (by decide), ?_, ?_⟩, ⟨fun h => absurd h.1 (by decide), ?_, ?_⟩,
      ⟨fun h => absurd h.1 (by decide), ?_, ?_⟩, trivial⟩ <;> decide
  exact ⟨rfl, hcursor, halong, echoed_line rfl hcursor halong⟩

end RedstoneOS.EchoedLine
