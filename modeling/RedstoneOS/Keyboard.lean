import RedstoneOS.Screen
import RedstoneOS.TerminalInput

namespace RedstoneOS.Keyboard

open KernelState Library.ByteMemory

def leftShiftPress : UInt8 := 0x2A
def rightShiftPress : UInt8 := 0x36
def ctrlPress : UInt8 := 0x1D
def altPress : UInt8 := 0x38
def capslockPress : UInt8 := 0x3A
def backspacePress : UInt8 := 0x0E
def bitMask : UInt8 := 0x80
def screenSize : Nat := 4096

/-- The saved cell of `switch_terminal`: `s`, `temp` and `pre_ATTRIB` are statics that nothing
assigns. -/
def savedCell : Int := 0
def temp : UInt8 := 0
def preAttrib : UInt8 := 0

def kbdus : List UInt8 :=
  [0, 27, 49, 50, 51, 52, 53, 54, 55, 56, 57, 48, 45, 61, 8, -- 1 to 0 - = and Backspace
   9, 113, 119, 101, 114, 116, 121, 117, 105, 111, 112, 91, 93, 10, -- q to p and Enter
   0, 97, 115, 100, 102, 103, 104, 106, 107, 108, 59, 39, 96, -- Control, a to l
   0, 92, 122, 120, 99, 118, 98, 110, 109, 44, 46, 47, 0, -- between the Shift keys, z to m
   42, 0, 32, 0, -- Alt, the space bar and Caps lock
   0, 0, 0, 0, 0, 0, 0, 0, 0, 0, 0, 0, 0, 0, 0, -- F1 to Page Up
   45, 0, 0, 0, 43] -- the other keys are 0

def isLetter (key : UInt8) : Bool := 97 ≤ key && key ≤ 122

/-- Shift with 3 gives a dollar sign, and the full stop stays. -/
def shiftKey (key : UInt8) : UInt8 :=
  if key = 49 then 33 else if key = 50 then 64 else if key = 51 then 36
  else if key = 52 then 36 else if key = 53 then 37 else if key = 54 then 94
  else if key = 55 then 38 else if key = 56 then 42 else if key = 57 then 40
  else if key = 48 then 41 else if key = 45 then 95 else if key = 61 then 43
  else if key = 44 then 60 else if key = 46 then 46 else if key = 47 then 63
  else if isLetter key then key - 32 else key

structure Modifiers where
  ctrl : Bool
  shift : Bool
  capslock : Bool
  alt : Bool
  deriving DecidableEq

structure State where
  input : TerminalInput.State
  screen : Screen.State
  modifiers : Modifiers
  kernelPageTable : Int → Nat

abbrev State.terminalId (k : State) : Fin 3 := k.input.terminalId

abbrev State.currentTerminalId (k : State) : Fin 3 := k.input.currentTerminalId

def pressModifiers (scancode : UInt8) (m : Modifiers) : Modifiers :=
  let m := if scancode = leftShiftPress then { m with shift := true } else m
  let m := if scancode = leftShiftPress + bitMask then { m with shift := false } else m
  let m := if scancode = rightShiftPress then { m with shift := true } else m
  let m := if scancode = rightShiftPress + bitMask then { m with shift := false } else m
  let m := if scancode = ctrlPress then { m with ctrl := true } else m
  let m := if scancode = ctrlPress + bitMask then { m with ctrl := false } else m
  let m := if scancode = altPress then { m with alt := true } else m
  let m := if scancode = altPress + bitMask then { m with alt := false } else m
  if scancode = capslockPress then { m with capslock := !m.capslock } else m

def translateKey (scancode : UInt8) (m : Modifiers) : UInt8 :=
  let key := kbdus.getD scancode.toNat 0
  let key := if m.shift then shiftKey key else key
  if m.capslock && isLetter key then key - 32 else key

def onScreen (f : Screen.State → Screen.State) (k : State) : State := { k with screen := f k.screen }

def onInput (f : TerminalInput.State → TerminalInput.State) (k : State) : State :=
  { k with input := f k.input }

def putc (c : UInt8) (runningTerminal : Bool) (k : State) : State :=
  onScreen (Screen.putc (if runningTerminal then k.terminalId else k.currentTerminalId) c) k

def clear (k : State) : State := onScreen (Screen.clear k.terminalId) k

def switchVideoPd (addr terminalId : Int) (k : State) : State :=
  { k with kernelPageTable :=
      Function.update k.kernelPageTable (video + terminalId * 2) (u32 addr ||| userNotPresent) }

def switchTerminal (target : Fin 3) (k : State) : State :=
  let start := screenSize * target.val
  let k := onScreen (Screen.outVga 0x0C (UInt8.ofNat (start / 256 % 256))) k
  let k := onScreen (Screen.outVga 0x0D (UInt8.ofNat (start % 256))) k
  let k := onScreen (Screen.storeCell k.terminalId savedCell temp preAttrib) k
  let k := onInput (fun s => TerminalInput.step s (.altFn target)) k
  switchVideoPd (Screen.pageAddr k.terminalId) k.terminalId.val k

def functionKey (scancode : UInt8) : Option (Fin 3) :=
  if scancode = 0x3B then some ⟨0, by decide⟩
  else if scancode = 0x3C then some ⟨1, by decide⟩
  else if scancode = 0x3D then some ⟨2, by decide⟩
  else none

def Printable (scancode key : UInt8) : Prop :=
  scancode ≠ backspacePress ∧ key ≠ 10 ∧ 32 ≤ key ∧ key ≤ 126 ∧ key ≠ 0

instance (scancode key : UInt8) : Decidable (Printable scancode key) :=
  inferInstanceAs (Decidable (_ ∧ _ ∧ _ ∧ _ ∧ _))

def typeKey (key : UInt8) (k : State) : State :=
  if k.input.keyBuffSize k.terminalId = TerminalInput.buffSizeLimit then k
  else putc key true (onInput (TerminalInput.keyPressed key) k)

def eraseKey (k : State) : State :=
  if 0 < k.input.keyBuffSize k.terminalId then
    onInput TerminalInput.backspacePressed (onScreen (Screen.backspace k.terminalId) k)
  else k

def enterKey (key : UInt8) (k : State) : State :=
  putc key true (onInput TerminalInput.enterPressed k)

def editLine (scancode key : UInt8) (k : State) : State :=
  let k := if Printable scancode key then typeKey key k else k
  let k := if scancode = backspacePress then eraseKey k else k
  if key = 10 then enterKey key k else k

def switchOnAlt (scancode : UInt8) (k : State) : State :=
  match functionKey scancode with
  | some target => if k.modifiers.alt then switchTerminal target k else k
  | none => k

/-- A key with the top bit set is released. Alt with s plays a song, which is left out. -/
def keyboardHandler (scancode : UInt8) (k : State) : State :=
  let k := switchOnAlt scancode { k with modifiers := pressModifiers scancode k.modifiers }
  if scancode &&& bitMask ≠ 0 then k
  else
    let key := translateKey scancode k.modifiers
    if (key = 76 ∨ key = 108) ∧ k.modifiers.ctrl then clear k
    else if key = 115 ∧ k.modifiers.alt then k
    else editLine scancode key k

def puts (s : List UInt8) (runningTerminal : Bool) (k : State) : State :=
  (s.takeWhile (· ≠ 0)).foldl (fun k c => putc c runningTerminal k) k

def terminalWriteLoop (buf : Memory UInt8) (i : Nat) : Nat → State → State
  | 0, k => k
  | n + 1, k => terminalWriteLoop buf (i + 1) n (putc (buf i) false k)

/-- No buffer is the null pointer. -/
def terminalWrite (buf : Option (Memory UInt8)) (nbytes : Int) (k : State) : Int × State :=
  match buf with
  | none => (-1, k)
  | some buf => if nbytes < 0 then (-1, k) else (nbytes, terminalWriteLoop buf 0 nbytes.toNat k)

/-- A key event, output of the kernel or of the running program, or a timer tick, of which
only the turn to the next terminal matters here. -/
inductive Event
  | scancode (c : UInt8)
  | putc (c : UInt8) (runningTerminal : Bool)
  | puts (s : List UInt8) (runningTerminal : Bool)
  | terminalWrite (buf : Option (Memory UInt8)) (nbytes : Int)
  | tick

def step (k : State) : Event → State
  | .scancode c => keyboardHandler c k
  | .putc c runningTerminal => putc c runningTerminal k
  | .puts s runningTerminal => puts s runningTerminal k
  | .terminalWrite buf nbytes => (terminalWrite buf nbytes k).2
  | .tick => onInput (fun s => TerminalInput.step s .tick) k

def beforeClear (memory : Int → UInt8) : State where
  input := TerminalInput.initial ⟨0, by decide⟩ ⟨0, by decide⟩
  screen := ⟨memory, fun _ => 0, fun _ => 0, fun _ => 0, []⟩
  modifiers := ⟨false, false, false, false⟩
  kernelPageTable := fun _ => 0

section Fields

variable (f : Screen.State → Screen.State) (g : TerminalInput.State → TerminalInput.State)
  (k : State)

@[simp] theorem onScreen_screen : (onScreen f k).screen = f k.screen := rfl
@[simp] theorem onInput_screen : (onInput g k).screen = k.screen := rfl

theorem clear_screen : (clear k).screen = Screen.clear k.terminalId k.screen := rfl

end Fields

theorem terminalWriteLoop_eq (buf : Memory UInt8) (i n : Nat) (k : State) :
    terminalWriteLoop buf i n k = (readBytes buf i n).foldl (fun k c => putc c false k) k := by
  induction n generalizing i k with
  | zero => rfl
  | succ n ih =>
    rw [readBytes_succ, List.foldl_cons]
    exact ih (i + 1) (putc (buf i) false k)

theorem translateKey_backspace (m : Modifiers) : translateKey backspacePress m = 8 := by
  obtain ⟨ctrl, shift, capslock, alt⟩ := m
  cases shift <;> cases capslock <;> rfl

theorem keyboardHandler_backspace (k : State) :
    keyboardHandler backspacePress k = eraseKey k := by
  have hkey := translateKey_backspace (pressModifiers backspacePress k.modifiers)
  have hmods : pressModifiers backspacePress k.modifiers = k.modifiers := rfl
  have hrelease : ¬ (backspacePress &&& bitMask ≠ 0) := by decide
  have hswitch : switchOnAlt backspacePress k = k := rfl
  have hprint : ¬ Printable backspacePress 8 := fun h => h.1 rfl
  simp only [keyboardHandler, hmods, hswitch, if_neg hrelease] at hkey ⊢
  simp [hkey, editLine, hprint]

end RedstoneOS.Keyboard
