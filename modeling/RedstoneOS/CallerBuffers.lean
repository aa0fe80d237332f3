import RedstoneOS.TerminalDelivery
import RedstoneOS.Syscalls
import RedstoneOS.ExecuteChecks

namespace RedstoneOS.CallerBuffers

open Lib Library.ByteMemory KernelState Execute Syscalls TerminalInput TerminalDelivery
  ExecuteChecks

/-- The loop of `terminal_read` with its stores; `fuel` is how far `i` is from `MAX_CHAR`. -/
def readLoop (out : Memory UInt8) (buf nbytes : Nat) : Nat → Nat → Mem → Nat × Mem
  | 0, i, m => (i, m)
  | fuel + 1, i, m =>
    if i < nbytes ∧ out i ≠ 0 then
      readLoop out buf nbytes fuel (i + 1) (Function.update m (buf + i) (out i))
    else (i, m)

/-- `terminal_read` once its loop has let it pass, with the memory of its caller. -/
def terminalRead (buf : Nat) (nbytes : Int) (s : State) (m : Mem) : Int × State × Mem :=
  if nbytes ≤ 0 then (0, copyOut nbytes s, m)
  else
    let r := readLoop (s.outBuf s.terminalId) buf nbytes.toNat maxChar 0 m
    (r.1, copyOut nbytes s, Function.update r.2 (buf + r.1) 0)

def OnlyInside (buf : Nat) (n : Int) (m m' : Mem) : Prop :=
  ∀ a : Nat, a < buf ∨ buf + n ≤ a → m' a = m a

structure ReadsExactly (s : State) (line : List UInt8) (buf : Nat) (nbytes : Int) : Prop where
  value : ∀ m, (terminalRead buf nbytes s m).1 = (min nbytes.toNat line.length : Nat)
  bytes : ∀ m, readBytes (terminalRead buf nbytes s m).2.2 buf (min nbytes.toNat line.length) =
    line.take nbytes.toNat
  frame : ∀ m, OnlyInside buf nbytes m (terminalRead buf nbytes s m).2.2

variable {s : State} {line : List UInt8} {out : Memory UInt8} {buf nbytes fuel i : Nat}

theorem readLoop_eq (out : Memory UInt8) (buf nbytes fuel i : Nat) (m : Mem) :
    readLoop out buf nbytes fuel i m = (i + (copyLoop out nbytes fuel i).length,
      fill m (buf + i) (fun j => out (i + j)) (copyLoop out nbytes fuel i).length) := by
  induction fuel generalizing i m with
  | zero => rw [readLoop, copyLoop, List.length_nil, fill_zero, Nat.add_zero]
  | succ fuel ih =>
    rw [readLoop, copyLoop]
    split
    · have hshift : (fun j => out (i + 1 + j)) = fun j => (fun j => out (i + j)) (1 + j) := by
        funext j
        rw [Nat.add_assoc]
      have hfirst : Function.update m (buf + i) (out i) =
          fill m (buf + i) (fun j => out (i + j)) 1 := by
        rw [fill_one, Nat.add_zero]
      rw [ih, List.length_cons, hfirst, hshift, ← Nat.add_assoc buf i 1, fill_append,
        Nat.add_assoc i 1, Nat.add_comm 1]
    · rw [List.length_nil, fill_zero, Nat.add_zero]

theorem terminalRead_eq (hline : Spells (s.outBuf s.terminalId) line) (buf : Nat) {n : Int}
    (hn : 0 < n) (m : Mem) {count : Nat} (hcount : min n.toNat line.length = count) :
    terminalRead buf n s m = ((count : Int), copyOut n s,
      Function.update (fill m buf (fun j => line.getD j 0) count : Mem) (buf + count) 0) := by
  have hcopy : copyLoop (s.outBuf s.terminalId) n.toNat maxChar 0 = line.take n.toNat := by
    rw [copyLoop_eq hline n.toNat (Nat.zero_le _) (Nat.add_zero maxChar), List.drop_zero,
      Nat.sub_zero]
  have hbytes : fill m buf (s.outBuf s.terminalId) count = fill m buf (fun j => line.getD j 0) count :=
    fill_congr m buf fun j hj => hline.bytes j (by omega)
  have hloop := readLoop_eq (s.outBuf s.terminalId) buf n.toNat maxChar 0 m
  simp only [hcopy, List.length_take, hcount, Nat.zero_add, Nat.add_zero] at hloop
  rw [terminalRead, if_neg (Int.not_le.mpr hn)]
  simp only [hloop, hbytes]

/-- The NUL is stored inside the request exactly when the line ends inside it. -/
theorem readsExactly_iff (hline : Spells (s.outBuf s.terminalId) line) (buf : Nat) {nbytes : Int}
    (hn : 0 ≤ nbytes) :
    ReadsExactly s line buf nbytes ↔ nbytes = 0 ∨ line.length < nbytes := by
  by_cases hzero : nbytes = 0
  · subst hzero
    refine iff_of_true ⟨fun m => ?_, fun m => ?_, fun m a _ => rfl⟩ (Or.inl rfl)
    · rw [Int.toNat_zero, Nat.zero_min]
      rfl
    · rw [Int.toNat_zero, Nat.zero_min]
      rfl
  · have hpos : 0 < nbytes := by omega
    constructor
    · intro h
      refine Or.inr (Int.not_le.mp fun hle => ?_)
      have hcount : min nbytes.toNat line.length = nbytes.toNat := by omega
      have hlast := h.frame (fun _ => 1) (buf + nbytes.toNat) (Or.inr (by omega))
      rw [terminalRead_eq hline buf hpos _ hcount] at hlast
      dsimp only at hlast
      rw [Function.update_self] at hlast
      exact absurd hlast (by decide)
    · intro h
      have hlt : line.length < nbytes := h.resolve_left hzero
      have hcount : min nbytes.toNat line.length = line.length := by omega
      refine ⟨fun m => ?_, fun m => ?_, fun m a ha => ?_⟩
      · rw [terminalRead_eq hline buf hpos m hcount, hcount]
      · have htake : readBytes (fill m buf (fun j => line.getD j 0) line.length) buf line.length =
            line.take nbytes.toNat := by
          rw [readBytes_fill, range_map_getD line 0 le_rfl, Nat.sub_self, List.replicate_zero,
            List.append_nil, List.take_of_length_le (by omega)]
        rw [terminalRead_eq hline buf hpos m hcount, hcount, ← htake]
        refine List.map_congr_left fun j hj => ?_
        have hj := List.mem_range.mp hj
        exact Function.update_of_ne (by omega) _ _
      · rw [terminalRead_eq hline buf hpos m hcount]
        dsimp only
        rw [Function.update_of_ne (by omega), fill_outside _ _ _ (by omega)]

def oneLine (terminal : Fin 3) (line : List UInt8) : State :=
  { initial terminal terminal with outBuf := fun _ i => line.getD i 0 }

theorem spells_oneLine (terminal : Fin 3) {line : List UInt8} (hlen : line.length ≤ maxChar)
    (hchars : ∀ c, c ∈ line → c ≠ 0) :
    Spells ((oneLine terminal line).outBuf (oneLine terminal line).terminalId) line :=
  ⟨hlen, hchars, fun _ _ => rfl⟩

/-- Ten bytes are enough for "ls" and its newline. -/
theorem readsExactly_ls : (0 : Int) ≤ 10 ∧
    (ReadsExactly (oneLine 0 [108, 115, 10]) [108, 115, 10] 0x8100000 10 ↔
      (10 : Int) = 0 ∨ (([108, 115, 10] : List UInt8).length : Int) < 10) :=
  ⟨by decide, readsExactly_iff (spells_oneLine 0 (by decide) (by simp)) 0x8100000 (by decide)⟩

/-- Three bytes are not: the NUL goes behind them. -/
theorem read_past_request :
    Spells ((oneLine 0 [108, 115, 10]).outBuf 0) [108, 115, 10] ∧
      ¬ ReadsExactly (oneLine 0 [108, 115, 10]) [108, 115, 10] 0x8100000 3 := by
  refine ⟨spells_oneLine 0 (by decide) (by simp), fun h => ?_⟩
  have hframe := h.frame (fun _ => 1) 0x8100003 (Or.inr (by decide))
  exact absurd hframe (by decide)

theorem getargs_outside {k : Kernel} {buf : Nat} {nbytes : Int} (hbuf : buf ≠ 0)
    (hn : (k.pcbs (getPcbAddr k)).pcbArgSize ≤ nbytes) (m : Mem) {a : Nat}
    (hargs : a < buf ∨ buf + (k.pcbs (getPcbAddr k)).pcbArgSize.toNat ≤ a) :
    (getargs buf nbytes k m).2 a = fill m buf (fun _ => 0) bufferSize a := by
  rw [getargs, if_neg hbuf, if_neg (Int.not_lt.mpr hn)]
  exact fill_outside _ _ _ hargs

def KeepsOutside (buf : Nat) (nbytes : Int) (k : Kernel) : Prop :=
  ∀ m, OnlyInside buf nbytes m (getargs buf nbytes k m).2

/-- `getargs` clears 1024 bytes whatever size it is told. -/
theorem keepsOutside_iff {k : Kernel} {nbytes : Int} (buf : Nat)
    (hn : (k.pcbs (getPcbAddr k)).pcbArgSize ≤ nbytes) :
    KeepsOutside buf nbytes k ↔ buf = 0 ∨ bufferSize ≤ nbytes := by
  by_cases hbuf : buf = 0
  · refine iff_of_true (fun m a _ => ?_) (Or.inl hbuf)
    rw [getargs, if_pos hbuf]
  · constructor
    · intro h
      refine Or.inr (Int.not_lt.mp fun hshort => ?_)
      simp only [bufferSize] at hshort
      have hlast := h (fun _ => 1) (buf + 1023) (Or.inr (by omega))
      rw [getargs_outside hbuf hn _ (Or.inr (by omega)),
        fill_inside _ _ _ (by simp only [bufferSize]; omega)] at hlast
      exact absurd (show (0 : UInt8) = 1 from hlast) (by decide)
    · intro h m a ha
      have hsize := h.resolve_left hbuf
      rw [getargs_outside hbuf hn m (by omega), fill_outside _ _ _ (by omega)]

def abKernel : Kernel := storeArguments (getPcbAddr tinyKernel) ⟨0, [97, 98]⟩ tinyKernel

theorem keepsOutside_ab : (abKernel.pcbs (getPcbAddr abKernel)).pcbArgSize ≤ (1024 : Int) ∧
    (KeepsOutside 0x8100000 1024 abKernel ↔ 0x8100000 = 0 ∨ (bufferSize : Int) ≤ 1024) :=
  ⟨by decide, keepsOutside_iff 0x8100000 (by decide)⟩

/-- A program that offers 32 bytes loses the 992 behind them. -/
theorem getargs_clears_behind : (abKernel.pcbs (getPcbAddr abKernel)).pcbArgSize ≤ (32 : Int) ∧
    ¬ KeepsOutside 0x8100000 32 abKernel := by
  refine ⟨by decide, fun h => ?_⟩
  have hframe := h (fun _ => 1) 0x8100020 (Or.inr (by decide))
  exact absurd hframe (by decide)

end RedstoneOS.CallerBuffers
