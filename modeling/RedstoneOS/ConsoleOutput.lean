import RedstoneOS.ScreenCells
import RedstoneOS.Library.Console

namespace RedstoneOS.ConsoleOutput

open Screen CursorBounds ScreenCells Library.ByteMemory Library.Console

def page (t : Fin 3) (s : State) (r k : Nat) : UInt8 := cell t s (80 * r + k)

def console (t : Fin 3) (s : State) : Text UInt8 :=
  ofPage 25 blank (page t s) (s.screenY t).toNat (s.screenX t).toNat

/-- A page shows the window of a text, with the cursor where the text has it. -/
structure Shows (t : Fin 3) (s : State) (c : Text UInt8) : Prop where
  chars : ∀ r k, r < 25 → k < 80 → page t s r k = window c r k
  x : s.screenX t = c.col
  y : s.screenY t = (c.row : Int) - c.top

variable {s : State} {t u : Fin 3} {c : Text UInt8} {b : UInt8} {r k : Nat}

theorem cursorInside_of_shows (h : Shows t s c) (hc : Fits 80 25 blank c) : CursorInside s t := by
  have hx := h.x
  have hy := h.y
  have hcol := hc.col
  have htop := hc.top
  have hrow := hc.row
  refine ⟨?_, ?_, ?_, ?_⟩ <;> omega

theorem shows_console (ht : CursorInside s t) : Shows t s (console t s) := by
  obtain ⟨hx, -, hy, -⟩ := ht
  refine ⟨fun r k hr _ => (window_ofPage (page t s) _ _ hr).symm, ?_, ?_⟩
  · simp only [console, ofPage]
    omega
  · simp only [console, ofPage]
    omega

theorem fits_console (ht : CursorInside s t) : Fits 80 25 blank (console t s) := by
  obtain ⟨hx, hx', hy, hy'⟩ := ht
  exact fits_ofPage (page t s) (by omega) (by omega)

theorem scrolled_page {f : Int → UInt8} {g : Nat → Nat → UInt8}
    (h : ∀ r k : Nat, r < 25 → k < 80 → f (80 * r + k) = g r k) (hr : r < 25) (hk : k < 80) :
    ScreenCells.scrolled f (80 * r + k) = Library.Console.scrolled 25 blank g r k := by
  rw [ScreenCells.scrolled, Library.Console.scrolled]
  by_cases hlast : r + 1 < 25
  · rw [if_pos (by omega), if_pos hlast, ← h (r + 1) k hlast hk]
    congr 1
    push_cast
    omega
  · rw [if_neg (by omega), if_neg hlast]

theorem rowBelow_newRow (hc : Fits 80 25 blank c) :
    rowBelow ((c.row : Int) - c.top) = ((newRow 25 c).row : Int) - (newRow 25 c).top := by
  have hrow : (newRow 25 c).row = c.row + 1 := rfl
  rw [rowBelow, top_newRow hc, hrow]
  by_cases hlast : c.row + 1 = c.top + 25
  · rw [if_pos (by simp only [numberOfRows]; omega), if_pos hlast]
    simp only [numberOfRows]
    omega
  · rw [if_neg (by simp only [numberOfRows]; omega), if_neg hlast]
    omega

theorem shows_newLine (h : Shows t s c) (hc : Fits 80 25 blank c) (hb : isNewLine b = true) :
    Shows t (putc t b s) (newRow 25 c) := by
  have hy := h.y
  obtain ⟨hx', hy'⟩ := putc_newLine_cursor (s := s) (t := t) hb
  have hlast : s.screenY t + 1 = numberOfRows ↔ c.row + 1 = c.top + 25 := by
    simp only [numberOfRows]
    omega
  refine ⟨fun r k hr hk => ?_, ?_, ?_⟩
  · rw [page, cell_putc_newLine hb (by omega) (by omega), window_newRow hc hr]
    simp only [hlast]
    split
    · exact scrolled_page h.chars hr hk
    · exact h.chars r k hr hk
  · rw [hx', Function.update_self]
    rfl
  · rw [hy', Function.update_self, hy, rowBelow_newRow hc]

theorem stored_page (h : Shows t s c) (hc : Fits 80 25 blank c) (hr : r < 25) (hk : k < 80) :
    Function.update (cell t s) (cursorCell t s) b (80 * r + k) = window (put b c) r k := by
  have hx := h.x
  have hy := h.y
  have hcol := hc.col
  have htop := hc.top
  have hcell : (80 * r + k : Int) = cursorCell t s ↔ r = c.row - c.top ∧ k = c.col := by
    simp only [cursorCell, numberOfCols]
    omega
  rw [Function.update_apply, window_put hc]
  simp only [hcell]
  split
  · rfl
  · exact h.chars r k hr hk

theorem shows_char (h : Shows t s c) (hc : Fits 80 25 blank c) (hb : isNewLine b = false) :
    Shows t (putc t b s) (write 80 25 isNewLine c b) := by
  have hx := h.x
  have hy := h.y
  have hput := fits_put hc b
  obtain ⟨h1, h2, h3, h4⟩ := cursorInside_of_shows h hc
  obtain ⟨hx', hy'⟩ := putc_char_cursor (s := s) (t := t) hb h1 h2 h3 h4
  have hend : s.screenX t + 1 = numberOfCols ↔ c.col + 1 = 80 := by
    simp only [numberOfCols]
    omega
  have hlast : s.screenY t + 1 = numberOfRows ↔ (put b c).row + 1 = (put b c).top + 25 := by
    simp only [numberOfRows, put]
    omega
  have hcells : ∀ r k : Nat, r < 25 → k < 80 →
      Function.update (cell t s) (cursorCell t s) b (80 * r + k) = window (put b c) r k :=
    fun r k hr hk => stored_page h hc hr hk
  have hpage : ∀ r k, r < 25 → k < 80 → page t (putc t b s) r k =
      if c.col + 1 = 80 ∧ (put b c).row + 1 = (put b c).top + 25
      then Library.Console.scrolled 25 blank (window (put b c)) r k else window (put b c) r k := by
    intro r k hr hk
    rw [page, cell_putc_char hb (by omega) (by omega)]
    simp only [hend, hlast]
    split
    · exact scrolled_page hcells hr hk
    · exact hcells r k hr hk
  have hcol : (put b c).col = c.col := rfl
  rw [write, if_neg (by simp [hb])]
  dsimp only
  by_cases hfull : c.col + 1 = 80
  · rw [hcol, if_pos hfull]
    refine ⟨fun r k hr hk => ?_, ?_, ?_⟩
    · rw [hpage r k hr hk, window_newRow hput hr]
      simp only [hfull, true_and]
    · rw [hx', Function.update_self, if_pos (hend.mpr hfull)]
      rfl
    · rw [hy', Function.update_self, if_pos (hend.mpr hfull), hy]
      exact rowBelow_newRow (c := put b c) hput
  · rw [hcol, if_neg hfull]
    refine ⟨fun r k hr hk => ?_, ?_, ?_⟩
    · rw [hpage r k hr hk, if_neg fun h => hfull h.1]
      rfl
    · rw [hx', Function.update_self, if_neg fun h => hfull (hend.mp h), hx]
      push_cast
      rfl
    · rw [hy', Function.update_self, if_neg fun h => hfull (hend.mp h), hy]
      rfl

theorem shows_putc (h : Shows t s c) (hc : Fits 80 25 blank c) (b : UInt8) :
    Shows t (putc t b s) (write 80 25 isNewLine c b) := by
  by_cases hb : isNewLine b = true
  · rw [write, if_pos hb]
    exact shows_newLine h hc hb
  · exact shows_char h hc (by simpa using hb)

theorem cursorInside_putc (ht : CursorInside s t) (b : UInt8) : CursorInside (putc t b s) t :=
  cursorInside_of_shows (shows_putc (shows_console ht) (fits_console ht) b)
    (fits_write (fits_console ht) (by decide) isNewLine b)

/-- The loop of `terminal_write` writes on one terminal and touches no other. -/
theorem shows_writes (bytes : List UInt8) {k : Keyboard.State}
    (h : Shows k.currentTerminalId k.screen c) (hc : Fits 80 25 blank c) :
    Shows k.currentTerminalId (bytes.foldl (fun k a => Keyboard.putc a false k) k).screen
      (bytes.foldl (write 80 25 isNewLine) c) ∧
    ∀ u, u ≠ k.currentTerminalId →
      SamePage u k.screen (bytes.foldl (fun k a => Keyboard.putc a false k) k).screen := by
  induction bytes generalizing k c with
  | nil => exact ⟨h, fun u _ => samePage_refl u k.screen⟩
  | cons a bytes ih =>
    have hput := shows_putc h hc a
    have hfits := fits_write hc (by decide) isNewLine a
    obtain ⟨hshows, hothers⟩ := ih (k := Keyboard.putc a false k) hput hfits
    refine ⟨hshows, fun u hu => ?_⟩
    have hfirst := samePage_putc (cursorInside_of_shows h hc) hu a
    exact samePage_trans hfirst (hothers u hu)

/-- `terminal_write` is a scrolling terminal: it leaves on its page the window over the rows that
the bytes have been written to, and the other terminals as they were. -/
theorem console_output (k : Keyboard.State) (ht : CursorInside k.screen k.currentTerminalId)
    (buf : Memory UInt8) (nbytes : Int) :
    Shows k.currentTerminalId (Keyboard.terminalWrite (some buf) nbytes k).2.screen
      ((readBytes buf 0 nbytes.toNat).foldl (write 80 25 isNewLine)
        (console k.currentTerminalId k.screen)) ∧
    ∀ u, u ≠ k.currentTerminalId →
      SamePage u k.screen (Keyboard.terminalWrite (some buf) nbytes k).2.screen := by
  have hshows := shows_console ht
  rw [Keyboard.terminalWrite]
  split
  next hneg =>
    rw [Int.toNat_of_nonpos (by omega)]
    exact ⟨hshows, fun u _ => samePage_refl u k.screen⟩
  next hpos =>
    rw [Keyboard.terminalWriteLoop_eq]
    exact shows_writes (readBytes buf 0 nbytes.toNat) hshows (fits_console ht)

def lastCell : Keyboard.State :=
  { Keyboard.beforeClear fun _ => 65 with
    screen := ⟨fun _ => 65, fun _ => 79, fun _ => 24, fun _ => 0, []⟩ }

theorem console_output_scrolls : CursorInside lastCell.screen lastCell.currentTerminalId ∧
    Shows lastCell.currentTerminalId
      (Keyboard.terminalWrite (some fun _ => 66) 2 lastCell).2.screen
      ((readBytes (fun _ => 66) 0 (2 : Int).toNat).foldl (write 80 25 isNewLine)
        (console lastCell.currentTerminalId lastCell.screen)) ∧
    ∀ u, u ≠ lastCell.currentTerminalId →
      SamePage u lastCell.screen (Keyboard.terminalWrite (some fun _ => 66) 2 lastCell).2.screen :=
  have hinside : CursorInside lastCell.screen lastCell.currentTerminalId :=
    ⟨by decide, by decide, by decide, by decide⟩
  ⟨hinside, console_output lastCell hinside (fun _ => 66) 2⟩

end RedstoneOS.ConsoleOutput
