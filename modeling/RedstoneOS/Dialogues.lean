import RedstoneOS.UserProgram
import RedstoneOS.Library.Runs

namespace RedstoneOS.Dialogues

open KernelState Lib Library.ByteMemory Filesystem ReadData Execute Syscalls ExecuteChecks
open SequentialReads Itoa Ece391Support UserStrings UserProgram TerminalInput TerminalDelivery
open Library.Runs

def bufsize : Nat := 1024

def storeNul (a : Nat) (p : Process) : Process := { p with mem := Function.update p.mem a 0 }

def hello (sys : System) (buf : Nat) (p : Process) : Option (Int × Process) := do
  let p ← fdputsLiteral 1 (ascii "Hi, what's your name? ") p
  let (cnt, p) ← ece391Read sys 0 buf ((bufsize - 1 : Nat) : Int) p
  if cnt = -1 then
    (fdputsLiteral 1 (ascii "Can't read name from keyboard.\n") p).map fun p => (3, p)
  else do
    let p ← fdputsLiteral 1 (ascii "Hello, ") (storeNul (buf + cnt.toNat) p)
    (ece391Fdputs 1 buf p).map fun p => (0, p)

def countLoop (buf : Nat) : Nat → UInt32 → Process → Option Process
  | 0, _, p => some p
  | n + 1, i, p => do
    let b ← ece391Itoa (i + 1) buf 10 ⟨p.mem, []⟩
    let p ← ece391Fdputs 1 buf { p with mem := b.mem }
    let p ← fdputsLiteral 1 (ascii "\n") p
    countLoop buf n (i + 1) p

def countMax (choice : UInt8) : Nat :=
  if choice = 48 then 100 else if choice = 49 then 10000 else if choice = 50 then 100000 else 0

def counter (sys : System) (buf : Nat) (p : Process) : Option (Int × Process) := do
  let p ← fdputsLiteral 1
    (ascii "Enter the Test Number: (0): 100, (1): 10000, (2): 100000\n") p
  let (cnt, p) ← ece391Read sys 0 buf ((bufsize - 1 : Nat) : Int) p
  if cnt = -1 then
    (fdputsLiteral 1 (ascii "Can't read the number from keyboard.\n") p).map fun p => (3, p)
  else
    let p := storeNul (buf + cnt.toNat) p
    if 2 < ece391Strlen p.mem buf ∨
        ece391Strlen p.mem buf = 2 ∧ (p.mem buf < 48 ∨ 50 < p.mem buf) then
      (fdputsLiteral 1 (ascii "Wrong Choice!\n") p).map fun p => (0, p)
    else (countLoop buf (countMax (p.mem buf)) 0 p).map fun p => (0, p)

structure Session where
  kernel : Kernel
  console : Keyboard.State
  typed : List (List UInt8)

def Process.session (p : Process) : Session := ⟨p.kernel, p.console, p.typed⟩

def Process.resume (p : Process) (s : Session) : Process := ⟨s.kernel, p.mem, s.console, s.typed⟩

def Session.puts (l : List UInt8) (s : Session) : Session := { s with console := emit l s.console }

def verdict (rval : Int) : List UInt8 :=
  if rval = -1 then ascii "no such command\n"
  else if rval = 256 then ascii "program terminated by exception\n"
  else if rval ≠ 0 then ascii "program terminated abnormally\n"
  else []

section Shell

variable (execute : List UInt8 → Session → Int × Session)

def shellRound (sys : System) (buf : Nat) (p : Process) : Option (Option Int × Process) := do
  let p ← fdputsLiteral 1 (ascii "391OS> ") p
  let (cnt, p) ← ece391Read sys 0 buf ((bufsize - 1 : Nat) : Int) p
  if cnt = -1 then
    (fdputsLiteral 1 (ascii "read from keyboard failed\n") p).map fun p => (some 3, p)
  else
    let cnt := if 0 < cnt ∧ p.mem (buf + (cnt - 1).toNat) = 10 then cnt - 1 else cnt
    let p := storeNul (buf + cnt.toNat) p
    if ece391Strcmp (fun j => p.mem (buf + j)) (byteAt (ascii "exit")) = 0 then some (some 0, p)
    else if p.mem buf = 0 then some (none, p)
    else
      let (rval, s) := execute (textAt p.mem buf) (Process.session p)
      let p := Process.resume p s
      if rval = -1 then (fdputsLiteral 1 (ascii "no such command\n") p).map fun p => (none, p)
      else if rval = 256 then
        (fdputsLiteral 1 (ascii "program terminated by exception\n") p).map fun p => (none, p)
      else if rval ≠ 0 then
        (fdputsLiteral 1 (ascii "program terminated abnormally\n") p).map fun p => (none, p)
      else some (none, p)

def commandOf (line : List UInt8) : List UInt8 :=
  if line.getLast? = some 10 then line.dropLast else line

/-- A round of a shell as its user knows it: the command of a line is run. -/
def commandRound (s : Session) : Option (Option Int × Session) :=
  match s.typed with
  | [] => none
  | line :: typed =>
    let s := Session.puts (ascii "391OS> ") { s with typed := typed }
    if commandOf line = ascii "exit" then some (some 0, s)
    else if commandOf line = [] then some (none, s)
    else
      let (rval, s) := execute (commandOf line) s
      some (none, s.puts (verdict rval))

end Shell

def LineText (line : List UInt8) : Prop := line.length ≤ maxChar ∧ 0 ∉ line

variable {sys : System} {p : Process} {buf : Nat} {line : List UInt8} {typed : List (List UInt8)}

theorem readDispatch_stdin (h : Stdin p.kernel) (hbuf : buf ≠ 0) :
    readDispatch 0 buf p.kernel = .enter .terminal := by
  have hvalid : ¬ (maxFdNum < 0 ∨ (0 : Int) < 0 ∨ (0 : Int) = 1 ∨ buf = 0) := by
    simp only [maxFdNum]
    omega
  simp only [readDispatch, if_neg hvalid, if_neg h.used, h.ops]

theorem read_waits (sys : System) (h : Stdin p.kernel) (hbuf : buf ≠ 0) (htyped : p.typed = [])
    (n : Int) : ece391Read sys 0 buf n p = none := by
  simp only [ece391Read, readDispatch_stdin h hbuf, htyped]

theorem read_line (sys : System) (h : Stdin p.kernel) (hbuf : buf ≠ 0)
    (htyped : p.typed = line :: typed) (hline : LineText line) :
    ∃ m', ece391Read sys 0 buf ((bufsize - 1 : Nat) : Int) p =
        some ((line.length : Int), { p with mem := m', typed := typed }) ∧
      HoldsText (fun j => m' (buf + j)) line := by
  have hspells := CallerBuffers.spells_oneLine p.console.currentTerminalId hline.1 fun c hc h0 =>
    hline.2 (h0 ▸ hc)
  have hcount : min ((bufsize - 1 : Nat) : Int).toNat line.length = line.length := by
    have hlen := hline.1
    simp only [bufsize, maxChar] at hlen ⊢
    omega
  have hread := CallerBuffers.terminalRead_eq hspells buf
    (show (0 : Int) < ((bufsize - 1 : Nat) : Int) by decide) p.mem hcount
  refine ⟨Function.update (fill p.mem buf (fun j => line.getD j 0) line.length)
    (buf + line.length) 0, ?_, hline.2, fun j hj => ?_⟩
  · simp only [ece391Read, readDispatch_stdin h hbuf, htyped, hread]
  · obtain hlt | rfl := Nat.lt_or_eq_of_le hj
    · rw [Function.update_of_ne (by omega), fill_inside _ _ _ hlt]
      rfl
    · rw [Function.update_self, byteAt_end]

theorem storeNul_end (h : HoldsText (fun j => p.mem (buf + j)) line) :
    storeNul (buf + line.length) p = p := by
  have hnul : p.mem (buf + line.length) = 0 := h.nul
  rw [storeNul, Function.update_eq_self_iff.mpr hnul.symm]

theorem hello_greets (hin : Stdin p.kernel) (hout : Stdout p.kernel) (hbuf : buf ≠ 0)
    (htyped : p.typed = line :: typed) (hline : LineText line) :
    ∃ p', hello sys buf p = some (0, p') ∧ p'.typed = typed ∧
      p'.console = emit (ascii "Hi, what's your name? " ++ ascii "Hello, " ++ line) p.console := by
  obtain ⟨m', hread, htext⟩ := read_line sys (p := p.puts (ascii "Hi, what's your name? ")) hin hbuf
    htyped hline
  have hlen : line.length ≤ addressSpace := by
    have hl := hline.1
    simp only [maxChar, addressSpace] at hl ⊢
    omega
  have hstored := storeNul_end
    (p := { p.puts (ascii "Hi, what's your name? ") with mem := m', typed := typed }) htext
  have hcnt : ¬ ((line.length : Int) = -1) := by omega
  have hgreet := fdputsLiteral_stdout
    (p := { p.puts (ascii "Hi, what's your name? ") with mem := m', typed := typed }) hout
    (ascii "Hello, ")
  have hname := fdputs_puts
    (p := { p.puts (ascii "Hi, what's your name? ") with mem := m', typed := typed }) hout hbuf
    (ascii "Hello, ")
  rw [htext.textAt hlen] at hname
  simp only [hello, fdputsLiteral_stdout hout, Option.bind_eq_bind, Option.bind_some, hread,
    if_neg hcnt, Int.toNat_natCast, hstored, hgreet, hname, Option.map_some]
  refine ⟨_, rfl, rfl, ?_⟩
  rw [List.append_assoc, emit_append]
  rfl

def numberLines (i n : Nat) : List UInt8 :=
  (List.range n).flatMap fun j => valueText 10 (i + j + 1) ++ ascii "\n"

theorem numberLines_succ (i n : Nat) : numberLines i (n + 1) =
    valueText 10 (i + 1) ++ ascii "\n" ++ numberLines (i + 1) n := by
  rw [numberLines, List.range_succ_eq_map, List.flatMap_cons, List.flatMap_map, numberLines,
    Nat.add_zero]
  congr 1
  apply List.flatMap_congr
  intro j _
  rw [Nat.succ_eq_add_one, show i + (j + 1) + 1 = i + 1 + j + 1 by omega]

theorem countLoop_eq {n : Nat} {i : UInt32} (hout : Stdout p.kernel) (hbuf : buf ≠ 0)
    (hi : i.toNat + n < 4294967296) : ∃ p', countLoop buf n i p = some p' ∧ p'.typed = p.typed ∧
      p'.console = emit (numberLines i.toNat n) p.console := by
  induction n generalizing i p with
  | zero => exact ⟨p, rfl, rfl, (emit_nil _).symm⟩
  | succ n ih =>
    have hnext : (i + 1).toNat = i.toNat + 1 := by
      rw [UInt32.toNat_add, UInt32.toNat_one]
      omega
    obtain ⟨b, hitoa, hmem, -⟩ := itoa_eq (by decide : 1 < (10 : UInt32).toNat) (by decide)
      (i + 1) buf ⟨p.mem, []⟩
    rw [hnext] at hmem
    have htext : textAt b.mem buf = valueText 10 (i.toNat + 1) := by
      have hlen := valueText_length_le (by decide : 1 < 10) (i + 1)
      rw [hnext] at hlen
      rw [hmem]
      refine textAt_place _ _ (zero_not_mem_valueText (by decide) (by decide) _)
        (Function.update_self _ _ _) ?_
      simp only [addressSpace]
      exact hlen.trans (by decide)
    have hnumber := fdputs_stdout (p := { p with mem := b.mem }) hout hbuf
    have hnewline := fdputsLiteral_puts (p := { p with mem := b.mem }) hout
      (valueText 10 (i.toNat + 1)) (ascii "\n")
    rw [htext] at hnumber
    obtain ⟨p', hrun, ht, hc⟩ := ih (i := i + 1)
      (p := Process.puts (valueText 10 (i.toNat + 1) ++ ascii "\n") { p with mem := b.mem }) hout
      (by omega)
    refine ⟨p', ?_, ht, ?_⟩
    · simp only [countLoop, ece391Itoa_eq, hitoa, Option.bind_eq_bind, Option.bind_some, hnumber,
        hnewline, hrun]
    · rw [hc, hnext, numberLines_succ, emit_append, Process.puts_console]

def counterAnswer (line : List UInt8) : List UInt8 :=
  if 2 < line.length ∨ line.length = 2 ∧ (byteAt line 0 < 48 ∨ 50 < byteAt line 0)
  then ascii "Wrong Choice!\n" else numberLines 0 (countMax (byteAt line 0))

/-- `counter` prints the numbers from 1 to the maximum that its line chooses. -/
theorem counter_counts (hin : Stdin p.kernel) (hout : Stdout p.kernel) (hbuf : buf ≠ 0)
    (htyped : p.typed = line :: typed) (hline : LineText line) :
    ∃ p', counter sys buf p = some (0, p') ∧ p'.typed = typed ∧
      p'.console = emit (ascii "Enter the Test Number: (0): 100, (1): 10000, (2): 100000\n" ++
        counterAnswer line) p.console := by
  obtain ⟨m', hread, htext⟩ := read_line sys
    (p := p.puts (ascii "Enter the Test Number: (0): 100, (1): 10000, (2): 100000\n")) hin hbuf
    htyped hline
  generalize hq : ({ p.puts
    (ascii "Enter the Test Number: (0): 100, (1): 10000, (2): 100000\n") with
      mem := m', typed := typed } : Process) = q at hread
  have hqout : Stdout q.kernel := hq ▸ hout
  have hqtyped : q.typed = typed := hq ▸ rfl
  have hqtext : HoldsText (fun j => q.mem (buf + j)) line := hq ▸ htext
  have hqconsole : q.console =
      emit (ascii "Enter the Test Number: (0): 100, (1): 10000, (2): 100000\n") p.console :=
    hq ▸ rfl
  have hstrlen : ece391Strlen q.mem buf = line.length := by
    refine hqtext.strlen ?_
    have hl := hline.1
    simp only [maxChar, addressSpace] at hl ⊢
    omega
  have hfirst : q.mem buf = byteAt line 0 := hqtext.bytes 0 (Nat.zero_le _)
  have hcnt : ¬ ((line.length : Int) = -1) := by omega
  simp only [counter, fdputsLiteral_stdout hout, Option.bind_eq_bind, Option.bind_some, hread,
    if_neg hcnt, Int.toNat_natCast, storeNul_end hqtext, hstrlen, hfirst]
  rw [emit_append, ← hqconsole, counterAnswer]
  by_cases hwrong : 2 < line.length ∨ line.length = 2 ∧ (byteAt line 0 < 48 ∨ 50 < byteAt line 0)
  · rw [if_pos hwrong, if_pos hwrong, fdputsLiteral_stdout hqout]
    exact ⟨_, rfl, hqtyped, rfl⟩
  · have hmax : countMax (byteAt line 0) ≤ 100000 := by
      rw [countMax]
      split_ifs <;> decide
    obtain ⟨p', hrun, ht, hc⟩ := countLoop_eq (n := countMax (byteAt line 0)) (i := 0) hqout hbuf
      (by simp; omega)
    rw [if_neg hwrong, if_neg hwrong, hrun]
    exact ⟨p', rfl, ht.trans hqtyped, hc⟩

structure Interactive (s : Session) : Prop where
  stdin : Stdin s.kernel
  stdout : Stdout s.kernel
  lines : ∀ line ∈ s.typed, LineText line

theorem strip_newline (h : HoldsText (fun j => p.mem (buf + j)) line) {cnt : Int}
    (hcnt : cnt = if 0 < (line.length : Int) ∧ p.mem (buf + ((line.length : Int) - 1).toNat) = 10
      then (line.length : Int) - 1 else (line.length : Int)) :
    HoldsText (fun j => (storeNul (buf + cnt.toNat) p).mem (buf + j)) (commandOf line) := by
  obtain rfl | ⟨init, c, rfl⟩ := List.eq_nil_or_concat line
  · rw [if_neg (fun h => absurd h.1 (by decide))] at hcnt
    subst hcnt
    exact (storeNul_end h).symm ▸ h
  · rw [List.concat_eq_append] at h hcnt ⊢
    have hindex : (((init ++ [c]).length : Int) - 1).toNat = init.length := by simp
    have hlast : p.mem (buf + init.length) = c := by
      have hc := h.bytes init.length (by simp)
      rwa [← Nat.add_zero init.length, byteAt_append_right] at hc
    have hpos : 0 < ((init ++ [c]).length : Int) := by simp
    rw [hindex, hlast] at hcnt
    rw [commandOf, List.getLast?_concat, List.dropLast_concat]
    by_cases h10 : c = 10
    · rw [if_pos ⟨hpos, h10⟩] at hcnt
      rw [if_pos (by rw [h10]), hcnt, hindex]
      refine ⟨fun h0 => h.chars (List.mem_append_left _ h0), fun j hj => ?_⟩
      change Function.update p.mem (buf + init.length) 0 (buf + j) = byteAt init j
      obtain hlt | rfl := Nat.lt_or_eq_of_le hj
      · have hj := h.bytes j (by simp; omega)
        rw [byteAt_append_left _ hlt] at hj
        rw [Function.update_of_ne (by omega), hj]
      · rw [Function.update_self, byteAt_end]
    · rw [if_neg (fun h => h10 h.2)] at hcnt
      rw [if_neg (fun h => h10 (Option.some.inj h)), hcnt, Int.toNat_natCast, storeNul_end h]
      exact h

theorem fdputsLiteral_verdict {q : Process} (hout : Stdout q.kernel) (rval : Int) :
    (if rval = -1 then (fdputsLiteral 1 (ascii "no such command\n") q).map fun p => (none, p)
      else if rval = 256 then
        (fdputsLiteral 1 (ascii "program terminated by exception\n") q).map fun p => (none, p)
      else if rval ≠ 0 then
        (fdputsLiteral 1 (ascii "program terminated abnormally\n") q).map fun p => (none, p)
      else some (none, q)) = some ((none : Option Int), q.puts (verdict rval)) := by
  simp only [fdputsLiteral_stdout hout, Option.map_some, verdict]
  split_ifs
  · rfl
  · rfl
  · rfl
  · rw [Process.puts_nil]

variable {execute : List UInt8 → Session → Int × Session}

/-- A round of the shell does to the session what its user expects. -/
theorem shellRound_refines (hbuf : buf ≠ 0)
    (hkeep : ∀ command s, Interactive s → Interactive (execute command s).2)
    (h : Interactive (Process.session p)) :
    (shellRound execute sys buf p).map (fun r => (r.1, Process.session r.2)) =
      commandRound execute (Process.session p) := by
  have hin : Stdin p.kernel := h.stdin
  have hout : Stdout p.kernel := h.stdout
  have hlines : ∀ line ∈ p.typed, LineText line := h.lines
  cases htyped : p.typed with
  | nil =>
    have hwaits := read_waits sys (p := p.puts (ascii "391OS> ")) hin hbuf htyped
    simp only [shellRound, fdputsLiteral_stdout hout, Option.bind_eq_bind, Option.bind_some, hwaits,
      Option.bind_none, Option.map_none, commandRound, Process.session, htyped]
  | cons line typed =>
    have hline : LineText line := hlines line (htyped ▸ List.mem_cons_self)
    obtain ⟨m', hread, htext⟩ := read_line sys (p := p.puts (ascii "391OS> ")) hin hbuf htyped
      hline
    generalize hq : ({ p.puts (ascii "391OS> ") with mem := m', typed := typed } : Process) = q
      at hread
    have hqtext : HoldsText (fun j => q.mem (buf + j)) line := hq ▸ htext
    have hsession : Process.session q =
        Session.puts (ascii "391OS> ") { Process.session p with typed := typed } := hq ▸ rfl
    have hcnt : ¬ ((line.length : Int) = -1) := by omega
    have hround : commandRound execute (Process.session p) =
        if commandOf line = ascii "exit" then some (some 0, Process.session q)
        else if commandOf line = [] then some (none, Process.session q)
        else some (none, (execute (commandOf line) (Process.session q)).2.puts
          (verdict (execute (commandOf line) (Process.session q)).1)) := by
      rw [commandRound, hsession]
      simp only [show (Process.session p).typed = line :: typed from htyped]
    simp only [shellRound, fdputsLiteral_stdout hout, Option.bind_eq_bind, Option.bind_some, hread,
      if_neg hcnt, hround]
    generalize hstrip : (if 0 < (line.length : Int) ∧
      q.mem (buf + ((line.length : Int) - 1).toNat) = 10 then (line.length : Int) - 1
      else (line.length : Int)) = cnt
    have hcommand := strip_newline hqtext hstrip.symm
    have hstored : Process.session (storeNul (buf + cnt.toNat) q) = Process.session q := rfl
    have hshort : (commandOf line).length < addressSpace := by
      have hl := hline.1
      have hle : (commandOf line).length ≤ line.length := by
        rw [commandOf]
        split
        · rw [List.length_dropLast]
          omega
        · exact le_rfl
      simp only [maxChar, addressSpace] at hl ⊢
      omega
    have hexit := strcmp_eq_zero hcommand (holdsText_byteAt (show 0 ∉ ascii "exit" by decide)) hshort
    have hempty : (storeNul (buf + cnt.toNat) q).mem buf = 0 ↔ commandOf line = [] := by
      have h0 : (storeNul (buf + cnt.toNat) q).mem buf = byteAt (commandOf line) 0 :=
        hcommand.bytes 0 (Nat.zero_le _)
      rw [h0]
      refine ⟨fun hz => ?_, fun hnil => hnil ▸ rfl⟩
      by_contra hne
      exact byteAt_ne hcommand.chars (List.length_pos_iff.mpr hne) hz
    simp only [hexit, hempty, hcommand.textAt (Nat.le_of_lt hshort), hstored]
    have hkept := hkeep (commandOf line) (Process.session q) (by
      rw [hsession]
      exact ⟨hin, hout, fun l hl => hlines l (htyped ▸ List.mem_cons_of_mem _ hl)⟩)
    generalize execute (commandOf line) (Process.session q) = result at hkept ⊢
    obtain ⟨rval, s⟩ := result
    by_cases hleave : commandOf line = ascii "exit"
    · rw [if_pos hleave, if_pos hleave, Option.map_some, hstored]
    · rw [if_neg hleave, if_neg hleave]
      by_cases hblank : commandOf line = []
      · rw [if_pos hblank, if_pos hblank, Option.map_some, hstored]
      · rw [if_neg hblank, if_neg hblank, fdputsLiteral_verdict hkept.stdout, Option.map_some]
        rfl

theorem commandRound_keeps
    (hkeep : ∀ command s, Interactive s → Interactive (execute command s).2) (s : Session)
    (value : Option Int) (s' : Session) (h : Interactive s)
    (hround : commandRound execute s = some (value, s')) : Interactive s' := by
  rw [commandRound] at hround
  cases htyped : s.typed with
  | nil => simp [htyped] at hround
  | cons line typed =>
    have hnext : Interactive (Session.puts (ascii "391OS> ") { s with typed := typed }) :=
      ⟨h.stdin, h.stdout, fun l hl => h.lines l (htyped ▸ List.mem_cons_of_mem _ hl)⟩
    have hrun := hkeep (commandOf line) _ hnext
    simp only [htyped] at hround
    split_ifs at hround
    · obtain ⟨-, rfl⟩ := hround
      exact hnext
    · obtain ⟨-, rfl⟩ := hround
      exact hnext
    · obtain ⟨-, rfl⟩ := hround
      exact ⟨hrun.stdin, hrun.stdout, hrun.lines⟩

theorem commandOf_entered {keys : List UInt8} (h : 10 ∉ keys) : commandOf (enteredLine keys) = keys := by
  rw [enteredLine]
  split
  · rw [commandOf, List.getLast?_concat, if_pos rfl, List.dropLast_concat]
  · rw [commandOf, if_neg fun hlast => h (List.mem_of_getLast? hlast)]

/-- The shell runs what is typed, and nothing else: over any number of lines it is a loop that
takes the next line, ends on "exit", passes over an empty line, and otherwise starts the program
with the line just as it was typed and reports what it returns. -/
theorem shell_runs_commands (hbuf : buf ≠ 0)
    (hkeep : ∀ command s, Interactive s → Interactive (execute command s).2)
    (h : Interactive (Process.session p)) (n : Nat) :
    (rounds (shellRound execute sys buf) n p).map (fun r => (r.1, Process.session r.2)) =
        rounds (commandRound execute) n (Process.session p) ∧
      ∀ keys : List UInt8, 10 ∉ keys → commandOf (enteredLine keys) = keys :=
  ⟨rounds_refine (fun _ hp => shellRound_refines hbuf hkeep hp)
    (fun s value s' hs hround => commandRound_keeps hkeep s value s' hs hround) n h,
    fun _ hkeys => commandOf_entered hkeys⟩

def typingProcess : Process :=
  { noteProcess with typed := [enteredLine (ascii "ls"), enteredLine (ascii "exit")] }

theorem shell_runs_commands_ls :
    (rounds (shellRound (fun _ s => (0, s)) noteSystem 0x8200000) 3 typingProcess).map
        (fun r => (r.1, Process.session r.2)) =
        rounds (commandRound fun _ s => (0, s)) 3 (Process.session typingProcess) ∧
      ∀ keys : List UInt8, 10 ∉ keys → commandOf (enteredLine keys) = keys := by
  have hlines : ∀ line ∈ typingProcess.typed, LineText line := by
    intro line hline
    simp only [typingProcess, List.mem_cons, List.not_mem_nil, or_false] at hline
    obtain rfl | rfl := hline
    · exact ⟨by decide, by decide⟩
    · exact ⟨by decide, by decide⟩
  exact shell_runs_commands (p := typingProcess) (by decide) (fun _ _ hs => hs)
    ⟨⟨by decide, by decide⟩, noteStdout, hlines⟩ 3

theorem counter_counts_hundred :
    ∃ p', counter noteSystem 0x8200000 { noteProcess with typed := [ascii "0\n"] } = some (0, p') ∧
      p'.typed = [] ∧ p'.console =
        emit (ascii "Enter the Test Number: (0): 100, (1): 10000, (2): 100000\n" ++
          counterAnswer (ascii "0\n")) noteProcess.console :=
  counter_counts ⟨by decide, by decide⟩ noteStdout (by decide) rfl ⟨by decide, by decide⟩

end RedstoneOS.Dialogues
