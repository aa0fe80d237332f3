import RedstoneOS.Library.ByteMemory
import RedstoneOS.Library.Runs
import RedstoneOS.KernelState

namespace RedstoneOS.TerminalInput

open Library.ByteMemory Library.Runs

def buffSizeLimit : Nat := 127
def maxChar : Nat := 127

/-- How far the process of a terminal is in `terminal_read`: `waiting` in its loop, `passed`
once the loop has ended, `ready` once `read_ready` is set again. -/
inductive Reader
  | idle
  | waiting (nbytes : Int)
  | passed (nbytes : Int)
  | ready (nbytes : Int)
  deriving DecidableEq

/-- A return of `terminal_read`, with the unread line of its terminal at that moment. -/
structure Return where
  terminal : Fin 3
  nbytes : Int
  bytes : List UInt8
  line : Option (List UInt8)
  deriving DecidableEq

/-- The globals of the keyboard and the terminals. The last four fields are history: what was
typed on a terminal since its last Enter, the line of its last Enter unless a `terminal_read`
of the terminal has returned since, the terminal of the last Enter, and the returns. -/
structure State where
  keyBuf : Fin 3 → Memory UInt8
  outBuf : Fin 3 → Memory UInt8
  keyBuffSize : Fin 3 → Nat
  readReady : Int
  terminalId : Fin 3
  currentTerminalId : Fin 3
  reader : Fin 3 → Reader
  typed : Fin 3 → List UInt8
  unread : Fin 3 → Option (List UInt8)
  lastEnter : Option (Fin 3)
  returns : List Return

inductive Event
  | key (c : UInt8)
  | backspace
  | enter
  | altFn (target : Fin 3)
  | tick
  | call (nbytes : Int)
  | test
  | setReady
  | copy

def keyPressed (c : UInt8) (s : State) : State :=
  let t := s.terminalId
  if 32 ≤ c ∧ c ≤ 126 ∧ s.keyBuffSize t ≠ buffSizeLimit then
    { s with
      keyBuf := Function.update s.keyBuf t (Function.update (s.keyBuf t) (s.keyBuffSize t) c)
      keyBuffSize := Function.update s.keyBuffSize t (s.keyBuffSize t + 1)
      typed := Function.update s.typed t (s.typed t ++ [c]) }
  else s

def backspacePressed (s : State) : State :=
  let t := s.terminalId
  if 0 < s.keyBuffSize t then
    { s with
      keyBuf := Function.update s.keyBuf t
        (Function.update (s.keyBuf t) (s.keyBuffSize t - 1) 0)
      keyBuffSize := Function.update s.keyBuffSize t (s.keyBuffSize t - 1)
      typed := Function.update s.typed t (s.typed t).dropLast }
  else s

/-- The line that Enter completes: a newline is added while there is room. -/
def enteredLine (typed : List UInt8) : List UInt8 :=
  if typed.length < buffSizeLimit then typed ++ [10] else typed

/-- The Enter branch of `keyboard_handler`: the buffer of the displayed terminal is moved to
its `out_buf` up to and with its end. -/
def enterPressed (s : State) : State :=
  let t := s.terminalId
  let size := s.keyBuffSize t
  let buf := if size < buffSizeLimit
    then Function.update (Function.update (s.keyBuf t) size 10) (size + 1) 0
    else Function.update (s.keyBuf t) size 0
  let size := if size < buffSizeLimit then size + 1 else size
  { s with
    outBuf := Function.update s.outBuf t (fill (s.outBuf t) 0 buf (size + 1))
    keyBuf := Function.update s.keyBuf t (fill buf 0 (fun _ => 0) (size + 1))
    keyBuffSize := Function.update s.keyBuffSize t 0
    readReady := 0
    typed := Function.update s.typed t []
    unread := Function.update s.unread t (some (enteredLine (s.typed t)))
    lastEnter := some t }

def copyLoop (buf : Memory UInt8) (nbytes : Nat) : Nat → Nat → List UInt8
  | 0, _ => []
  | fuel + 1, i =>
    if i < nbytes ∧ buf i ≠ 0 then buf i :: copyLoop buf nbytes fuel (i + 1) else []

/-- The end of `terminal_read` after `read_ready` is set: it reads the `out_buf` of the
displayed terminal. The read takes the line, also when `nbytes ≤ 0` and nothing of it is copied. -/
def copyOut (nbytes : Int) (s : State) : State :=
  let t := s.currentTerminalId
  let d := s.terminalId
  let bytes := if nbytes ≤ 0 then [] else copyLoop (s.outBuf d) nbytes.toNat maxChar 0
  { s with
    outBuf := if nbytes ≤ 0 then s.outBuf
      else Function.update s.outBuf d (Function.update (s.outBuf d) 0 0)
    reader := Function.update s.reader t .idle
    unread := Function.update s.unread t none
    returns := ⟨t, nbytes, bytes, s.unread t⟩ :: s.returns }

def setReader (r : Reader) (s : State) : State :=
  { s with reader := Function.update s.reader s.currentTerminalId r }

def nextTerminal (t : Fin 3) : Fin 3 := ⟨(t.val + 1) % 3, Nat.mod_lt _ (by decide)⟩

/-- The keyboard acts on the displayed terminal, the steps of `terminal_read` are those of
the process on the scheduled one. -/
def step (s : State) : Event → State
  | .key c => keyPressed c s
  | .backspace => backspacePressed s
  | .enter => enterPressed s
  | .altFn target => { s with terminalId := target }
  | .tick => { s with currentTerminalId := nextTerminal s.currentTerminalId }
  | .call nbytes =>
    if s.reader s.currentTerminalId = .idle then setReader (.waiting nbytes) s else s
  | .test =>
    match s.reader s.currentTerminalId with
    | .waiting nbytes =>
      if s.readReady ≠ 0 ∨ s.terminalId ≠ s.currentTerminalId then s
      else setReader (.passed nbytes) s
    | _ => s
  | .setReady =>
    match s.reader s.currentTerminalId with
    | .passed nbytes => setReader (.ready nbytes) { s with readReady := 1 }
    | _ => s
  | .copy =>
    match s.reader s.currentTerminalId with
    | .ready nbytes => copyOut nbytes s
    | _ => s

def initial (terminalId currentTerminalId : Fin 3) : State where
  keyBuf := fun _ _ => 0
  outBuf := fun _ _ => 0
  keyBuffSize := fun _ => 0
  readReady := 1
  terminalId := terminalId
  currentTerminalId := currentTerminalId
  reader := fun _ => .idle
  typed := fun _ => []
  unread := fun _ => none
  lastEnter := none
  returns := []

/-- The order of steps under which one `read_ready` is enough for three terminals. -/
def InOrder (s : State) : Event → Prop
  | .test => ∀ nbytes, s.reader s.currentTerminalId = .waiting nbytes → s.readReady = 0 →
      s.terminalId = s.currentTerminalId → s.lastEnter = some s.currentTerminalId
  | .setReady => ∀ nbytes, s.reader s.currentTerminalId = .passed nbytes →
      ∀ u, u ≠ s.currentTerminalId → s.unread u = none
  | .copy => ∀ nbytes, s.reader s.currentTerminalId = .ready nbytes →
      s.terminalId = s.currentTerminalId
  | .enter => ∀ nbytes, s.reader s.terminalId ≠ .ready nbytes
  | _ => True

end RedstoneOS.TerminalInput
