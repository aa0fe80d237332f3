import RedstoneOS.Library.LinkedList

namespace RedstoneOS.Blink

structure Entry where
  location : UInt16
  onChar : UInt8
  offChar : UInt8
  onLength : UInt16
  offLength : UInt16
  countdown : UInt16
  status : UInt16
  deriving DecidableEq

/-- A pointer is the index of a node of `blink_array`, or null. -/
structure BlinkStruct extends Entry where
  next : Option Nat
  deriving DecidableEq

structure State where
  blinkArray : Nat → BlinkStruct
  mp1ListHead : Option Nat
  vmem : Nat → UInt8

def cells : Nat := 2000

def zeroBlink : BlinkStruct := ⟨⟨0, 0, 0, 0, 0, 0, 0⟩, none⟩

def start (vmem : Nat → UInt8) : State := ⟨fun _ => zeroBlink, none, vmem⟩

def mp1Poke (cl : UInt8) (eax : Nat) (s : State) : State :=
  { s with vmem := Function.update s.vmem eax cl }

def store (i : Nat) (b : BlinkStruct) (s : State) : State :=
  { s with blinkArray := Function.update s.blinkArray i b }

def screenOffset (location : UInt16) : Nat := 2 * location.toNat

def taskletNode (ebx : Nat) (s : State) : State :=
  let b := s.blinkArray ebx
  let b := { b with countdown := b.countdown - 1 }
  if 0 < b.countdown.toInt16 then store ebx b s
  else if b.status &&& 1 = 0 then
    store ebx { b with countdown := b.onLength, status := b.status ^^^ 1 }
      (mp1Poke b.onChar (screenOffset b.location) s)
  else
    store ebx { b with countdown := b.offLength, status := b.status ^^^ 1 }
      (mp1Poke b.offChar (screenOffset b.location) s)

/-- `none` stands for a walk that has not ended within the bound. -/
def taskletLoop : Nat → Option Nat → State → Option State
  | 0, _, _ => none
  | _ + 1, none, s => some s
  | fuel + 1, some ebx, s =>
    taskletLoop fuel ((taskletNode ebx s).blinkArray ebx).next (taskletNode ebx s)

def walkBound : Nat := 2001

def mp1RtcTasklet (s : State) : Option State := taskletLoop walkBound s.mp1ListHead s

def findLoop (ax : UInt16) (s : State) : Nat → Option Nat → Option (Option Nat)
  | 0, _ => none
  | _ + 1, none => some none
  | fuel + 1, some ebx =>
    if (s.blinkArray ebx).location = ax then some (some ebx)
    else findLoop ax s fuel (s.blinkArray ebx).next

def mp1FindHelper (ax : UInt16) (s : State) : Option (Option Nat) :=
  findLoop ax s walkBound s.mp1ListHead

/-- A node without a location is free. -/
def mp1Malloc (s : State) : Option Nat :=
  (List.range cells).find? fun i => (s.blinkArray i).location = 0

def mp1Free (memory : Nat) (s : State) : State := store memory zeroBlink s

def mp1IoctlAdd (user : BlinkStruct) (s : State) : Int × State :=
  let temp := user
  if cells ≤ temp.location.toNat then (-1, s)
  else
    let temp := { temp with status := 1, countdown := temp.onLength }
    match mp1Malloc s with
    | none => (-1, s)
    | some edx =>
      let s := store edx temp s
      -- the pointer that was copied with the entry is overwritten
      let s := store edx { s.blinkArray edx with next := s.mp1ListHead } s
      let s := { s with mp1ListHead := some edx }
      let b := s.blinkArray edx
      (0, mp1Poke b.onChar (screenOffset b.location) s)

/-- What a pointer cell holds: the head of the list, or the pointer of a node. -/
def links (s : State) : Option Nat → Option Nat
  | none => s.mp1ListHead
  | some i => (s.blinkArray i).next

def setLink (cell value : Option Nat) (s : State) : State :=
  match cell with
  | none => { s with mp1ListHead := value }
  | some i => store i { s.blinkArray i with next := value } s

/-- The search for the cell that points to the node. Behind the end of the list it would
follow a null pointer. -/
def removeFindPrev (eax : Nat) (s : State) : Nat → Option Nat → Option (Option Nat)
  | 0, _ => none
  | fuel + 1, edx =>
    if links s edx = some eax then some edx
    else if links s edx = none then none
    else removeFindPrev eax s fuel (links s edx)

def mp1IoctlRemove (arg : UInt32) (s : State) : Option (Int × State) := do
  match ← mp1FindHelper arg.toUInt16 s with
  | none => some (-1, s)
  | some eax =>
    let edx ← removeFindPrev eax s walkBound none
    some (0, mp1Free eax (setLink edx (links s (some eax)) s))

/-- `testb` clears the overflow flag, and its sign flag is the highest bit of the result. -/
def cmovl (tested onChar offChar : UInt8) : UInt8 :=
  let sf := tested &&& 0x80 ≠ 0
  if sf then onChar else offChar

def syncCopy (esi edi : Nat) (s : State) : State :=
  let src := s.blinkArray esi
  let s := store edi { s.blinkArray edi with
    onLength := src.onLength, offLength := src.offLength, countdown := src.countdown,
    status := src.status } s
  let b := s.blinkArray edi
  mp1Poke (cmovl (b.status.toUInt8 &&& 1) b.onChar b.offChar) (screenOffset b.location) s

def mp1IoctlSync (arg : UInt32) (s : State) : Option (Int × State) := do
  match ← mp1FindHelper (arg >>> 16).toUInt16 s with
  | none => some (-1, s)
  | some esi =>
    match ← mp1FindHelper (arg &&& 0xFFFF).toUInt16 s with
    | none => some (-1, s)
    | some edi => some (0, syncCopy esi edi s)

inductive Call
  | add (user : BlinkStruct)
  | remove (arg : UInt32)
  | sync (arg : UInt32)
  | tasklet
  deriving DecidableEq

def step (s : State) : Call → Option State
  | .add user => some (mp1IoctlAdd user s).2
  | .remove arg => (mp1IoctlRemove arg s).map Prod.snd
  | .sync arg => (mp1IoctlSync arg s).map Prod.snd
  | .tasklet => mp1RtcTasklet s

end RedstoneOS.Blink
