import RedstoneOS.Keyboard

namespace RedstoneOS.TerminalSwitch

open Keyboard Library.Runs

variable {k k' k'' : State} {c : UInt8} {codes : List UInt8} {t : Fin 3}
  {addr : Int}

def switchCodes : List UInt8 := [0x38, 0xB8, 0x3B, 0x3C, 0x3D, 0xBB, 0xBC, 0xBD]

def handle (k : State) (c : UInt8) : State := keyboardHandler c k

/-- What a switch may change besides the memory: the displayed terminal, the start address
registers of the VGA controller, the entries of the video pages and the flag of Alt. -/
structure Frame (k k' : State) : Prop where
  cursors : k'.screen.screenX = k.screen.screenX ∧ k'.screen.screenY = k.screen.screenY
  input : k'.input = { k.input with terminalId := k'.terminalId }
  modifiers : k'.modifiers = { k.modifiers with alt := k'.modifiers.alt }
  vga : ∀ register, register ≠ 0x0C → register ≠ 0x0D →
    k'.screen.vga register = k.screen.vga register
  pages : ∀ i, (∀ t : Fin 3, i ≠ KernelState.video + t.val * 2) →
    k'.kernelPageTable i = k.kernelPageTable i

def Unchanged (k k' : State) : Prop := Frame k k' ∧ k'.screen.memory = k.screen.memory

def altAfter (c : UInt8) (alt : Bool) : Bool :=
  if c = altPress then true else if c = altPress + bitMask then false else alt

def leftTerminals (t : Fin 3) (alt : Bool) : List UInt8 → List (Fin 3)
  | [] => []
  | c :: codes =>
    match functionKey c with
    | some target =>
      if alt then t :: leftTerminals target alt codes else leftTerminals t alt codes
    | none => leftTerminals t (altAfter c alt) codes

def FirstCell (t : Fin 3) (addr : Int) : Prop :=
  addr = Screen.pageAddr t ∨ addr = Screen.pageAddr t + 1

instance (t : Fin 3) (addr : Int) : Decidable (FirstCell t addr) :=
  inferInstanceAs (Decidable (_ ∨ _))

theorem frame_refl (k : State) : Frame k k :=
  ⟨⟨rfl, rfl⟩, rfl, rfl, fun _ _ _ => rfl, fun _ _ => rfl⟩

theorem frame_trans (h : Frame k k') (h' : Frame k' k'') : Frame k k'' where
  cursors := ⟨h'.cursors.1.trans h.cursors.1, h'.cursors.2.trans h.cursors.2⟩
  input := by rw [h'.input, h.input]
  modifiers := by rw [h'.modifiers, h.modifiers]
  vga r hr hr' := (h'.vga r hr hr').trans (h.vga r hr hr')
  pages i hi := (h'.pages i hi).trans (h.pages i hi)

theorem translateKey_switchCode (hc : c ∈ switchCodes) (m : Modifiers) :
    translateKey c m = 0 := by
  obtain ⟨ctrl, shift, capslock, alt⟩ := m
  have hall : ∀ c ∈ switchCodes, ∀ shift capslock,
      translateKey c ⟨false, shift, capslock, false⟩ = 0 := by decide +kernel
  exact hall c hc shift capslock

theorem pressModifiers_switchCode (hc : c ∈ switchCodes) (m : Modifiers) :
    pressModifiers c m = { m with alt := altAfter c m.alt } := by
  obtain ⟨ctrl, shift, capslock, alt⟩ := m
  have hall : ∀ c ∈ switchCodes, ∀ ctrl shift capslock alt,
      pressModifiers c ⟨ctrl, shift, capslock, alt⟩ =
        ⟨ctrl, shift, capslock, altAfter c alt⟩ := by decide +kernel
  exact hall c hc ctrl shift capslock alt

theorem handle_switchCode (hc : c ∈ switchCodes) (k : State) :
    handle k c =
      switchOnAlt c { k with modifiers := { k.modifiers with alt := altAfter c k.modifiers.alt } } := by
  have hkey := translateKey_switchCode hc
  have hback : c ≠ backspacePress := by
    rintro rfl
    revert hc
    decide
  have hprint : ¬ Printable c 0 := fun h => h.2.2.2.2 rfl
  simp only [handle, keyboardHandler, pressModifiers_switchCode hc, hkey, editLine, if_neg hback,
    if_neg hprint]
  simp

theorem frame_alt (k : State) (alt : Bool) :
    Frame k { k with modifiers := { k.modifiers with alt := alt } } :=
  ⟨⟨rfl, rfl⟩, rfl, rfl, fun _ _ _ => rfl, fun _ _ => rfl⟩

theorem frame_switchTerminal (k : State) (target : Fin 3) : Frame k (switchTerminal target k) where
  cursors := ⟨rfl, rfl⟩
  input := rfl
  modifiers := rfl
  vga r hr hr' := by
    simp [switchTerminal, switchVideoPd, Screen.storeCell, Screen.outVga, hr, hr']
  pages i hi := Function.update_of_ne (hi target) _ _

theorem switchTerminal_memory (k : State) (target : Fin 3) :
    (switchTerminal target k).screen.memory addr =
      if FirstCell k.terminalId addr then 0 else k.screen.memory addr := by
  have hcell : Screen.cellAddr k.terminalId savedCell = Screen.pageAddr k.terminalId := by
    simp [Screen.cellAddr, savedCell]
  have hmem : (switchTerminal target k).screen.memory addr =
      (Screen.storeCell k.terminalId savedCell temp preAttrib k.screen).memory addr := rfl
  rw [hmem, Screen.storeCell_memory, hcell]
  by_cases hfirst : addr = Screen.pageAddr k.terminalId
  · have hne : Screen.pageAddr k.terminalId ≠ Screen.pageAddr k.terminalId + 1 := by omega
    simp only [hfirst, hne, FirstCell, temp, if_pos, if_false, true_or]
  · by_cases hnext : addr = Screen.pageAddr k.terminalId + 1
    · simp [hnext, FirstCell, preAttrib]
    · simp [hfirst, hnext, FirstCell]

theorem frame_switchOnAlt (k : State) (c : UInt8) : Frame k (switchOnAlt c k) := by
  unfold switchOnAlt
  split
  · split
    · exact frame_switchTerminal k _
    · exact frame_refl k
  · exact frame_refl k

theorem frame_run (hcodes : ∀ c ∈ codes, c ∈ switchCodes) (k : State) :
    Frame k (run handle k codes) := by
  induction codes generalizing k with
  | nil => exact frame_refl k
  | cons c codes ih =>
    have hstep : Frame k (handle k c) := by
      rw [handle_switchCode (hcodes c List.mem_cons_self)]
      exact frame_trans (frame_alt k _) (frame_switchOnAlt _ c)
    exact frame_trans hstep (ih (fun d hd => hcodes d (List.mem_cons_of_mem c hd)) (handle k c))

theorem altAfter_functionKey {target : Fin 3} (h : functionKey c = some target) (alt : Bool) :
    altAfter c alt = alt := by
  have hpress : c ≠ altPress := by
    rintro rfl
    exact nomatch h
  have hrelease : c ≠ altPress + bitMask := by
    rintro rfl
    exact nomatch h
  rw [altAfter, if_neg hpress, if_neg hrelease]

theorem handle_functionKey {target : Fin 3} (hc : c ∈ switchCodes)
    (h : functionKey c = some target) (k : State) :
    handle k c = if k.modifiers.alt then switchTerminal target k else k := by
  rw [handle_switchCode hc, altAfter_functionKey h, switchOnAlt, h]

/-- A sequence of switches clears the first cells of the terminals that it leaves, and no other
byte. -/
theorem run_memory (hcodes : ∀ c ∈ codes, c ∈ switchCodes) (k : State)
    [Decidable (∃ t ∈ leftTerminals k.terminalId k.modifiers.alt codes, FirstCell t addr)] :
    (run handle k codes).screen.memory addr =
      if ∃ t ∈ leftTerminals k.terminalId k.modifiers.alt codes, FirstCell t addr then 0
      else k.screen.memory addr := by
  induction codes generalizing k with
  | nil => simp [leftTerminals]
  | cons c codes ih =>
    have hc := hcodes c List.mem_cons_self
    rw [run_cons, ih (fun d hd => hcodes d (List.mem_cons_of_mem c hd)) (handle k c)]
    cases hkey : functionKey c with
    | none =>
      simp only [leftTerminals, hkey, handle_switchCode hc, switchOnAlt]
    | some target =>
      rw [handle_functionKey hc hkey]
      by_cases halt : k.modifiers.alt = true
      · have halt' : (switchTerminal target k).modifiers.alt = true := halt
        have hterminal : (switchTerminal target k).terminalId = target := rfl
        simp only [leftTerminals, hkey, halt, if_true, halt', hterminal, switchTerminal_memory,
          List.exists_mem_cons_iff]
        by_cases hlater : ∃ t ∈ leftTerminals target true codes, FirstCell t addr
        · simp only [hlater, or_true, if_true]
        · simp only [hlater, or_false, if_false]
      · simp [leftTerminals, hkey, halt]

/-- A sequence of switches leaves everything but the switch itself unchanged exactly when the
terminals that it leaves have zeros in their first cells. -/
theorem switches_unchanged_iff (k : State) (codes : List UInt8)
    (hcodes : ∀ c ∈ codes, c ∈ switchCodes) :
    Unchanged k (run handle k codes) ↔
      ∀ t ∈ leftTerminals k.terminalId k.modifiers.alt codes,
        k.screen.memory (Screen.pageAddr t) = 0 ∧ k.screen.memory (Screen.pageAddr t + 1) = 0 := by
  constructor
  · rintro ⟨-, hmemory⟩ t ht
    have hzero : ∀ addr, FirstCell t addr → k.screen.memory addr = 0 := by
      intro addr haddr
      rw [← hmemory, run_memory hcodes, if_pos ⟨t, ht, haddr⟩]
    exact ⟨hzero _ (Or.inl rfl), hzero _ (Or.inr rfl)⟩
  · intro hzero
    refine ⟨frame_run hcodes k, funext fun addr => ?_⟩
    rw [run_memory hcodes]
    split
    next h =>
      obtain ⟨t, ht, rfl | rfl⟩ := h
      · exact (hzero t ht).1.symm
      · exact (hzero t ht).2.symm
    next => rfl

def altHeld (memory : Int → UInt8) : State :=
  { beforeClear memory with modifiers := ⟨false, false, false, true⟩ }

theorem switches_unchanged_zeros :
    Unchanged (altHeld fun _ => 0) (run handle (altHeld fun _ => 0) [0x3C, 0x3B, 0xB8]) :=
  (switches_unchanged_iff _ _ (by decide +kernel)).mpr fun _ _ => ⟨rfl, rfl⟩

/-- Alt and F2, with a blank in the first cell of the page that is left. -/
theorem switch_erased_cell :
    let k := altHeld fun _ => Screen.blank
    k.screen.memory 0xB8000 = 32 ∧ (run handle k [0x3C]).screen.memory 0xB8000 = 0 := by
  decide

end RedstoneOS.TerminalSwitch
