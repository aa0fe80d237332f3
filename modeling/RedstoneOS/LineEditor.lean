import RedstoneOS.Keyboard
import RedstoneOS.TerminalDelivery
import RedstoneOS.TerminalSwitch

namespace RedstoneOS.LineEditor

open Keyboard Library.ByteMemory Library.Runs TerminalDelivery
open TerminalInput (buffSizeLimit enteredLine)
open TerminalSwitch (handle)

inductive Key
  | printable (c : UInt8)
  | backspace
  | enter
  | clear
  | other
  deriving DecidableEq

def keyOf (scancode : UInt8) (m : Modifiers) : Key :=
  let c := translateKey scancode m
  if scancode &&& bitMask ≠ 0 then .other
  else if (c = 76 ∨ c = 108) ∧ m.ctrl then .clear
  else if c = 115 ∧ m.alt then .other
  else if scancode = backspacePress then .backspace
  else if c = 10 then .enter
  else if 32 ≤ c ∧ c ≤ 126 then .printable c
  else .other

structure Editor where
  line : List UInt8
  published : List UInt8

def Editor.press (e : Editor) : Key → Editor
  | .printable c => if e.line.length < buffSizeLimit then { e with line := e.line ++ [c] } else e
  | .backspace => { e with line := e.line.dropLast }
  | .enter => ⟨[], enteredLine e.line⟩
  | .clear => e
  | .other => e

def editorStep (s : Modifiers × Editor) (scancode : UInt8) : Modifiers × Editor :=
  let m := pressModifiers scancode s.1
  (m, s.2.press (keyOf scancode m))

/-- Alt is held and the key is one of F1 to F3. -/
def Switches (k : State) (scancode : UInt8) : Prop :=
  (functionKey scancode).isSome ∧ (pressModifiers scancode k.modifiers).alt

def NoSwitch (k : State) (scancode : UInt8) : Prop := ¬ Switches k scancode

def typeIndexes (k : State) : List Nat :=
  if k.input.keyBuffSize k.terminalId = buffSizeLimit then [] else [k.input.keyBuffSize k.terminalId]

def eraseIndexes (k : State) : List Nat :=
  if 0 < k.input.keyBuffSize k.terminalId then [k.input.keyBuffSize k.terminalId - 1] else []

def enterIndexes (k : State) : List Nat :=
  let size := k.input.keyBuffSize k.terminalId
  if size < buffSizeLimit then [size, size + 1] ++ List.range (size + 2)
  else [size] ++ List.range (size + 1)

def loggedEdit (scancode key : UInt8) (k : State) : State × List Nat :=
  let r := if Printable scancode key then (typeKey key k, typeIndexes k) else (k, [])
  let r := if scancode = backspacePress then (eraseKey r.1, r.2 ++ eraseIndexes r.1) else r
  if key = 10 then (enterKey key r.1, r.2 ++ enterIndexes r.1) else r

def loggedHandler (scancode : UInt8) (k : State) : State × List Nat :=
  let k := switchOnAlt scancode { k with modifiers := pressModifiers scancode k.modifiers }
  if scancode &&& bitMask ≠ 0 then (k, [])
  else
    let key := translateKey scancode k.modifiers
    if (key = 76 ∨ key = 108) ∧ k.modifiers.ctrl then (clear k, [])
    else if key = 115 ∧ k.modifiers.alt then (k, [])
    else loggedEdit scancode key k

def buffers (k : State) (t : Fin 3) : Memory UInt8 × Memory UInt8 × Nat :=
  (k.input.keyBuf t, k.input.outBuf t, k.input.keyBuffSize t)

/-- The buffers of terminal `d` hold what the editor has, those of the others are as they were. -/
structure Edits (d : Fin 3) (start k : State) (e : Editor) : Prop where
  displayed : k.terminalId = d
  line : KeysHeld (k.input.keyBuf d) (k.input.keyBuffSize d) e.line
  published : Spells (k.input.outBuf d) e.published
  others : ∀ u, u ≠ d → buffers k u = buffers start u

structure EmptyBuffers (k : State) : Prop where
  keyBuf : k.input.keyBuf k.terminalId = fun _ => 0
  outBuf : k.input.outBuf k.terminalId = fun _ => 0
  keyBuffSize : k.input.keyBuffSize k.terminalId = 0

variable {k start : State} {d : Fin 3} {e : Editor} {key : Key} {scancode : UInt8}

theorem loggedEdit_value (scancode key : UInt8) (k : State) :
    (loggedEdit scancode key k).1 = editLine scancode key k := by
  simp only [loggedEdit, editLine, apply_ite Prod.fst]

/-- The log does not change what the handler does. -/
theorem loggedHandler_value (scancode : UInt8) (k : State) :
    (loggedHandler scancode k).1 = keyboardHandler scancode k := by
  simp only [loggedHandler, keyboardHandler, apply_ite Prod.fst, loggedEdit_value]

def act : Key → State → State
  | .printable c, k => typeKey c k
  | .backspace, k => eraseKey k
  | .enter, k => enterKey 10 k
  | .clear, k => clear k
  | .other, k => k

def actIndexes : Key → State → List Nat
  | .printable _, k => typeIndexes k
  | .backspace, k => eraseIndexes k
  | .enter, k => enterIndexes k
  | .clear, _ => []
  | .other, _ => []

theorem switchOnAlt_none (h : ¬ ((functionKey scancode).isSome ∧ k.modifiers.alt)) :
    switchOnAlt scancode k = k := by
  rw [switchOnAlt]
  split
  next target htarget => exact if_neg fun halt => h ⟨by rw [htarget]; rfl, halt⟩
  next => rfl

theorem loggedEdit_eq (scancode c : UInt8) (k : State) (hback : scancode = backspacePress → c = 8) :
    loggedEdit scancode c k =
      if scancode = backspacePress then (eraseKey k, eraseIndexes k)
      else if c = 10 then (enterKey 10 k, enterIndexes k)
      else if 32 ≤ c ∧ c ≤ 126 then (typeKey c k, typeIndexes k)
      else (k, []) := by
  rw [loggedEdit]
  by_cases hscan : scancode = backspacePress
  · have hprint : ¬ Printable scancode c := fun h => h.1 hscan
    have hten : c ≠ 10 := by
      rw [hback hscan]
      decide
    simp only [if_neg hprint, if_pos hscan, if_neg hten, List.nil_append]
  · by_cases hten : c = 10
    · have hprint : ¬ Printable scancode c := fun h => h.2.1 hten
      subst hten
      simp only [if_neg hprint, if_neg hscan, if_true, List.nil_append]
    · have hprint : Printable scancode c ↔ 32 ≤ c ∧ c ≤ 126 := by
        constructor
        · exact fun h => ⟨h.2.2.1, h.2.2.2.1⟩
        · intro h
          refine ⟨hscan, hten, h.1, h.2, ?_⟩
          rintro rfl
          exact absurd h.1 (by decide)
      simp only [if_neg hscan, if_neg hten, hprint]

/-- Without a switch the handler acts on the displayed terminal, as the class of the key says. -/
theorem loggedHandler_eq (h : NoSwitch k scancode) :
    loggedHandler scancode k =
      (act (keyOf scancode (pressModifiers scancode k.modifiers))
          { k with modifiers := pressModifiers scancode k.modifiers },
        actIndexes (keyOf scancode (pressModifiers scancode k.modifiers))
          { k with modifiers := pressModifiers scancode k.modifiers }) := by
  generalize hm : pressModifiers scancode k.modifiers = m
  have hswitch : switchOnAlt scancode { k with modifiers := m } = { k with modifiers := m } :=
    switchOnAlt_none (by rw [← hm]; exact h)
  have hback : scancode = backspacePress → translateKey scancode m = 8 := by
    rintro rfl
    exact translateKey_backspace m
  rw [loggedHandler, hm, hswitch, keyOf]
  dsimp only
  rw [loggedEdit_eq _ _ _ hback]
  split
  · rfl
  · split
    · rfl
    · split
      · rfl
      · split
        · rfl
        · split
          · rfl
          · split <;> rfl

theorem handle_eq (h : NoSwitch k scancode) :
    handle k scancode = act (keyOf scancode (pressModifiers scancode k.modifiers))
      { k with modifiers := pressModifiers scancode k.modifiers } := by
  rw [handle, ← loggedHandler_value, loggedHandler_eq h]

theorem keyOf_printable {c : UInt8} {m : Modifiers} (h : keyOf scancode m = .printable c) :
    32 ≤ c ∧ c ≤ 126 := by
  simp only [keyOf] at h
  split at h
  · cases h
  · split at h
    · cases h
    · split at h
      · cases h
      · split at h
        · cases h
        · split at h
          · cases h
          · split at h
            next hrange =>
              cases h
              exact hrange
            next => cases h

def inputAct : Key → TerminalInput.State → TerminalInput.State
  | .printable c => TerminalInput.keyPressed c
  | .backspace => TerminalInput.backspacePressed
  | .enter => TerminalInput.enterPressed
  | .clear => id
  | .other => id

theorem act_input (key : Key) (k : State) : (act key k).input = inputAct key k.input := by
  cases key with
  | printable c =>
    simp only [act, typeKey, inputAct]
    split
    next hfull =>
      rw [TerminalInput.keyPressed, if_neg fun h => h.2.2 hfull]
    next => rfl
  | backspace =>
    simp only [act, eraseKey, inputAct]
    split
    · rfl
    next hempty => rw [TerminalInput.backspacePressed, if_neg hempty]
  | enter => rfl
  | clear => rfl
  | other => rfl

theorem inputAct_terminalId (key : Key) (s : TerminalInput.State) :
    (inputAct key s).terminalId = s.terminalId := by
  cases key with
  | printable c =>
    simp only [inputAct, TerminalInput.keyPressed]
    split <;> rfl
  | backspace =>
    simp only [inputAct, TerminalInput.backspacePressed]
    split <;> rfl
  | enter => rfl
  | clear => rfl
  | other => rfl

theorem inputAct_others (key : Key) (s : TerminalInput.State) {u : Fin 3} (hu : u ≠ s.terminalId) :
    ((inputAct key s).keyBuf u, (inputAct key s).outBuf u, (inputAct key s).keyBuffSize u) =
      (s.keyBuf u, s.outBuf u, s.keyBuffSize u) := by
  cases key with
  | printable c =>
    simp only [inputAct, TerminalInput.keyPressed]
    split
    · simp only [Function.update_of_ne hu]
    · rfl
  | backspace =>
    simp only [inputAct, TerminalInput.backspacePressed]
    split
    · simp only [Function.update_of_ne hu]
    · rfl
  | enter => simp only [inputAct, TerminalInput.enterPressed, Function.update_of_ne hu]
  | clear => rfl
  | other => rfl

theorem inputAct_line {s : TerminalInput.State} (hkey : ∀ c, key = .printable c → 32 ≤ c ∧ c ≤ 126)
    (hline : KeysHeld (s.keyBuf s.terminalId) (s.keyBuffSize s.terminalId) e.line)
    (hout : Spells (s.outBuf s.terminalId) e.published) :
    KeysHeld ((inputAct key s).keyBuf s.terminalId) ((inputAct key s).keyBuffSize s.terminalId)
        (e.press key).line ∧
      Spells ((inputAct key s).outBuf s.terminalId) (e.press key).published := by
  have hsize := hline.size
  have hshort := hline.short
  cases key with
  | printable c =>
    obtain ⟨hlo, hhi⟩ := hkey c rfl
    simp only [inputAct, TerminalInput.keyPressed, Editor.press]
    by_cases hroom : e.line.length < buffSizeLimit
    · have hnot : s.keyBuffSize s.terminalId ≠ buffSizeLimit := by omega
      rw [if_pos hroom, if_pos ⟨hlo, hhi, hnot⟩]
      simp only [Function.update_self]
      refine ⟨keysHeld_key hline ?_ hnot, hout⟩
      rintro rfl
      exact absurd hlo (by decide)
    · have hfull : s.keyBuffSize s.terminalId = buffSizeLimit := by omega
      rw [if_neg hroom, if_neg fun h => h.2.2 hfull]
      exact ⟨hline, hout⟩
  | backspace =>
    simp only [inputAct, TerminalInput.backspacePressed, Editor.press]
    split
    next hsome =>
      simp only [Function.update_self]
      exact ⟨keysHeld_backspace hline hsome, hout⟩
    next hempty =>
      have hnil : e.line = [] := List.eq_nil_of_length_eq_zero (by omega)
      refine ⟨?_, hout⟩
      rw [hnil, List.dropLast_nil, ← hnil]
      exact hline
  | enter =>
    simp only [inputAct, TerminalInput.enterPressed, Editor.press, Function.update_self]
    refine ⟨keysHeld_cleared hline, spells_congr (spells_entered hline) fun j hj => ?_⟩
    rw [enteredLine_length, ← hsize] at hj
    have hmoved := fill_inside (s.outBuf s.terminalId) 0
      (enteredBuf (s.keyBuf s.terminalId) (s.keyBuffSize s.terminalId))
      (Nat.lt_succ_of_le hj)
    rw [Nat.zero_add] at hmoved
    exact hmoved
  | clear => exact ⟨hline, hout⟩
  | other => exact ⟨hline, hout⟩

/-- One key, in the handler and in the editor. -/
theorem edits_handle (h : Edits d start k e) (hkey : NoSwitch k scancode) :
    Edits d start (handle k scancode)
      (e.press (keyOf scancode (pressModifiers scancode k.modifiers))) := by
  obtain ⟨rfl, hline, hout, hothers⟩ := h
  have hinput : (handle k scancode).input =
      inputAct (keyOf scancode (pressModifiers scancode k.modifiers)) k.input := by
    rw [handle_eq hkey, act_input]
  have hkeys : ∀ c, keyOf scancode (pressModifiers scancode k.modifiers) = .printable c →
      32 ≤ c ∧ c ≤ 126 := fun c hc => keyOf_printable hc
  have hedited := inputAct_line hkeys hline hout
  refine ⟨?_, ?_, ?_, fun u hu => ?_⟩
  · rw [State.terminalId, hinput, inputAct_terminalId]
  · rw [hinput]
    exact hedited.1
  · rw [hinput]
    exact hedited.2
  · rw [← hothers u hu, buffers, hinput]
    exact inputAct_others _ _ hu

theorem handle_modifiers (h : NoSwitch k scancode) :
    (handle k scancode).modifiers = pressModifiers scancode k.modifiers := by
  rw [handle_eq h]
  cases keyOf scancode (pressModifiers scancode k.modifiers) with
  | printable c =>
    simp only [act, typeKey]
    split <;> rfl
  | backspace =>
    simp only [act, eraseKey]
    split <;> rfl
  | enter => rfl
  | clear => rfl
  | other => rfl

theorem edits_run (h : Edits d start k e) {codes : List UInt8}
    (hcodes : Along handle NoSwitch k codes) :
    Edits d start (run handle k codes) (run editorStep (k.modifiers, e) codes).2 := by
  induction codes generalizing k e with
  | nil => exact h
  | cons scancode codes ih =>
    have hnext := ih (edits_handle h hcodes.1) hcodes.2
    rw [handle_modifiers hcodes.1] at hnext
    exact hnext

theorem actIndexes_lt (key : Key) (hshort : k.input.keyBuffSize k.terminalId ≤ buffSizeLimit) :
    ∀ i, i ∈ actIndexes key k → i < 128 := by
  intro i hi
  have hlimit : buffSizeLimit = 127 := rfl
  cases key with
  | printable c =>
    simp only [actIndexes, typeIndexes] at hi
    split at hi
    · cases hi
    · obtain rfl := List.mem_singleton.mp hi
      omega
  | backspace =>
    simp only [actIndexes, eraseIndexes] at hi
    split at hi
    · obtain rfl := List.mem_singleton.mp hi
      omega
    · cases hi
  | enter =>
    simp only [actIndexes, enterIndexes] at hi
    split at hi
    · simp only [List.mem_append, List.mem_cons, List.mem_range, List.not_mem_nil, or_false] at hi
      omega
    · simp only [List.mem_append, List.mem_singleton, List.mem_range] at hi
      omega
  | clear => cases hi
  | other => cases hi

theorem edits_empty (h : EmptyBuffers k) : Edits k.terminalId k k ⟨[], []⟩ where
  displayed := rfl
  line := by
    rw [h.keyBuf, h.keyBuffSize]
    exact ⟨rfl, Nat.zero_le _, fun c hc => absurd hc List.not_mem_nil, fun j => rfl⟩
  published := by
    rw [h.outBuf]
    exact ⟨Nat.zero_le _, fun c hc => absurd hc List.not_mem_nil, fun j _ => rfl⟩
  others _ _ := rfl

/-- From empty buffers on, the handler is a line editor on the displayed terminal, whatever keys
are pressed and released, and it stays inside the buffers with the next one. -/
theorem line_editor (h : EmptyBuffers k) {codes : List UInt8}
    (hcodes : Along handle NoSwitch k codes) :
    Edits k.terminalId k (run handle k codes)
        (run editorStep (k.modifiers, ⟨[], []⟩) codes).2 ∧
      ∀ scancode, NoSwitch (run handle k codes) scancode →
        ∀ i, i ∈ (loggedHandler scancode (run handle k codes)).2 → i < 128 := by
  have hedits := edits_run (edits_empty h) hcodes
  refine ⟨hedits, fun scancode hkey => ?_⟩
  have hsize := hedits.line.size
  have hshort := hedits.line.short
  rw [loggedHandler_eq hkey]
  refine actIndexes_lt _ ?_
  change (run handle k codes).input.keyBuffSize (run handle k codes).terminalId ≤ _
  rw [hedits.displayed]
  omega

theorem emptyBuffers_beforeClear (memory : Int → UInt8) : EmptyBuffers (beforeClear memory) :=
  ⟨rfl, rfl, rfl⟩

def typedCodes : List UInt8 := [0x26, 0x1F, 0x1C, 0x0E]

theorem line_editor_ls : EmptyBuffers (beforeClear fun _ => 0) ∧
    Along handle NoSwitch (beforeClear fun _ => 0) typedCodes ∧
    Edits (beforeClear fun _ => 0).terminalId (beforeClear fun _ => 0)
        (run handle (beforeClear fun _ => 0) typedCodes)
        (run editorStep ((beforeClear fun _ => 0).modifiers, ⟨[], []⟩) typedCodes).2 ∧
      ∀ scancode, NoSwitch (run handle (beforeClear fun _ => 0) typedCodes) scancode →
        ∀ i, i ∈ (loggedHandler scancode
          (run handle (beforeClear fun _ => 0) typedCodes)).2 → i < 128 := by
  have halong : Along handle NoSwitch (beforeClear fun _ => 0) typedCodes :=
    ⟨fun h => absurd h.1 (by decide), fun h => absurd h.1 (by decide),
      fun h => absurd h.1 (by decide), fun h => absurd h.1 (by decide), trivial⟩
  exact ⟨emptyBuffers_beforeClear _, halong, line_editor (emptyBuffers_beforeClear _) halong⟩

example : (run editorStep ((beforeClear fun _ => 0).modifiers, ⟨[], []⟩) typedCodes).2.published =
    [108, 115, 10] := by decide

end RedstoneOS.LineEditor
