import RedstoneOS.Itoa
import RedstoneOS.Keyboard
import RedstoneOS.Filesystem
import Mathlib.Data.List.TakeWhile

namespace RedstoneOS.Printf

open Lib Library.ByteMemory Library.Numerals Filesystem Itoa

/-- What one call of `printf` finds: its format, the words above it on the stack, the
strings that they may point to, and what its arrays hold before they are written. -/
structure Call where
  format : Memory UInt8
  args : Nat → UInt32
  strings : UInt32 → List UInt8
  uninit : Nat → Memory UInt8

/-- `buf` and `esp` count from the format and from its first argument. Beside them stand
the places of the format that have been read, and each store to a `conv_buf` with the
length of that array. -/
structure Printing where
  buf : Nat
  esp : Nat
  reads : List Nat
  stores : List (Nat × Nat)
  out : Keyboard.State

variable {call : Call} {p p' : Printing} {alternate : Bool} {v : UInt32} {n : Nat}

def Printing.next (p : Printing) : Printing := { p with buf := p.buf + 1 }

def Printing.read (p : Printing) : Printing := { p with reads := p.buf :: p.reads }

def Printing.putc (c : UInt8) (p : Printing) : Printing :=
  { p with out := Keyboard.putc c false p.out }

def Printing.puts (s : List UInt8) (p : Printing) : Printing :=
  { p with out := Keyboard.puts s false p.out }

def Printing.pop (p : Printing) : Printing := { p with esp := p.esp + 1 }

structure Conversion where
  convBuf : Buf
  start : Nat

def zeroLoop : Nat → Nat → Buf → Buf
  | 0, _, b => b
  | n + 1, i, b => zeroLoop n (i + 1) (b.store i 48)

def convertX (alternate : Bool) (value : UInt32) (uninit : Memory UInt8) : Option Conversion := do
  if alternate then
    let b ← itoa value 8 16 ⟨uninit, []⟩
    let startingIndex := strlen b.mem 8
    some ⟨zeroLoop (8 - startingIndex) startingIndex b, startingIndex⟩
  else
    let b ← itoa value 0 16 ⟨uninit, []⟩
    some ⟨b, 0⟩

def convertU (value : UInt32) (uninit : Memory UInt8) : Option Conversion := do
  let b ← itoa value 0 10 ⟨uninit, []⟩
  some ⟨b, 0⟩

def convertD (value : UInt32) (uninit : Memory UInt8) : Option Conversion := do
  if s32 value.toNat < 0 then
    let b ← itoa (0 - value) 1 10 (Buf.store 0 45 ⟨uninit, []⟩)
    some ⟨b, 0⟩
  else
    let b ← itoa value 0 10 ⟨uninit, []⟩
    some ⟨b, 0⟩

def Printing.number (size : Nat) (c : Conversion) (p : Printing) : Printing :=
  { p with
    esp := p.esp + 1
    stores := c.convBuf.stores.map (fun i => (i, size)) ++ p.stores
    out := Keyboard.puts (textAt c.convBuf.mem c.start) false p.out }

def formatChar (call : Call) (alternate : Bool) (p : Printing) : Option Printing :=
  let c := call.format p.buf
  let value := call.args p.esp
  let uninit := call.uninit p.esp
  if c = 37 then some (p.putc 37)
  else if c = 120 then (convertX alternate value uninit).map fun conv => p.number 64 conv
  else if c = 117 then (convertU value uninit).map fun conv => p.number 36 conv
  else if c = 100 then (convertD value uninit).map fun conv => p.number 36 conv
  else if c = 99 then some (p.putc value.toUInt8).pop
  else if c = 115 then some (p.puts (call.strings value)).pop
  else some p

def alternates (call : Call) : Nat → Bool → Printing → Option (Bool × Printing)
  | 0, _, _ => none
  | fuel + 1, alternate, p =>
    let p := p.read
    if call.format p.buf = 35 then alternates call fuel true p.next else some (alternate, p)

def printfLoop (call : Call) : Nat → Printing → Option Printing
  | 0, _ => none
  | fuel + 1, p =>
    let p := p.read
    if call.format p.buf = 0 then some p
    else if call.format p.buf = 37 then do
      let (alternate, p) ← alternates call fuel false p.next
      let p ← formatChar call alternate p
      printfLoop call fuel p.next
    else printfLoop call fuel (p.putc (call.format p.buf)).next

def Printing.start (out : Keyboard.State) : Printing := ⟨0, 0, [], [], out⟩

/-- `none` stands for a call that has not returned within the bound. -/
def printf (call : Call) (fuel : Nat) (out : Keyboard.State) : Option (Int × Printing) :=
  (printfLoop call fuel (.start out)).map fun p => (s32 (wrap p.buf), p)

@[simp] theorem Printing.next_buf (p : Printing) : p.next.buf = p.buf + 1 := rfl

@[simp] theorem Printing.next_reads (p : Printing) : p.next.reads = p.reads := rfl

@[simp] theorem Printing.read_buf (p : Printing) : p.read.buf = p.buf := rfl

@[simp] theorem Printing.read_reads (p : Printing) : p.read.reads = p.buf :: p.reads := rfl

theorem zeroLoop_mem (n i : Nat) (b : Buf) :
    (zeroLoop n i b).mem = place b.mem i (List.replicate n 48) := by
  induction n generalizing i b with
  | zero => exact (place_nil b.mem i).symm
  | succ n ih =>
    rw [zeroLoop, ih, List.replicate_succ, place_cons]
    rfl

theorem zeroLoop_stores (n i : Nat) (b : Buf) : StoresIn i (i + n) b (zeroLoop n i b) := by
  induction n generalizing i b with
  | zero => exact storesIn_refl _ _ b
  | succ n ih =>
    apply storesIn_trans (storesIn_store le_rfl (by omega) 48 b)
    exact (ih (i + 1) _).mono (Nat.le_succ i) (by omega)

structure Leaves (text : List UInt8) (size : Nat) (c : Conversion) : Prop where
  text : textAt c.convBuf.mem c.start = text
  stores : ∀ i ∈ c.convBuf.stores, i < size

theorem one_lt_ten : 1 < (10 : UInt32).toNat := by decide

theorem ten_le : (10 : UInt32).toNat ≤ 36 := by decide

theorem one_lt_sixteen : 1 < (16 : UInt32).toNat := by decide

theorem sixteen_le : (16 : UInt32).toNat ≤ 36 := by decide

theorem itoa_leaves {radix : UInt32} (hr : 1 < radix.toNat) (hmax : radix.toNat ≤ 36) (v : UInt32)
    (uninit : Memory UInt8) : ∃ b, itoa v 0 radix ⟨uninit, []⟩ = some b ∧
      Leaves (valueText radix.toNat v.toNat) 36 ⟨b, 0⟩ := by
  have hle := valueText_length_le hr v
  obtain ⟨b, hb, hmem, hstores⟩ := itoa_eq hr hmax v 0 ⟨uninit, []⟩
  refine ⟨b, hb, ?_, ?_⟩
  · simp only [hmem]
    exact textAt_place _ 0 (zero_not_mem_valueText hr hmax _) (Function.update_self _ _ _)
      (by simp only [addressSpace]; omega)
  · intro i hi
    obtain hnone | hin := hstores i hi
    · cases hnone
    · omega

theorem convertU_leaves (v : UInt32) (uninit : Memory UInt8) :
    ∃ c, convertU v uninit = some c ∧ Leaves (valueText 10 v.toNat) 36 c := by
  obtain ⟨b, hb, hleaves⟩ := itoa_leaves one_lt_ten ten_le v uninit
  refine ⟨⟨b, 0⟩, ?_, hleaves⟩
  rw [convertU, hb]
  rfl

def signedText (v : UInt32) : List UInt8 :=
  if s32 v.toNat < 0 then 45 :: valueText 10 (s32 v.toNat).natAbs
  else valueText 10 (s32 v.toNat).natAbs

theorem neg_toNat (h : s32 v.toNat < 0) : (0 - v).toNat = (s32 v.toNat).natAbs := by
  have hlt := v.toNat_lt
  rw [UInt32.toNat_sub, UInt32.toNat_zero]
  simp only [s32] at h ⊢
  split at h
  · omega
  · rw [if_neg (by omega)]
    omega

theorem nonneg_toNat (h : ¬ s32 v.toNat < 0) : (s32 v.toNat).natAbs = v.toNat := by
  have hlt := v.toNat_lt
  simp only [s32] at h ⊢
  split at h
  · rw [if_pos (by omega)]
    omega
  · omega

/-- The most negative value is its own negation, and as an unsigned number that is its
absolute value. -/
theorem convertD_leaves (v : UInt32) (uninit : Memory UInt8) :
    ∃ c, convertD v uninit = some c ∧ Leaves (signedText v) 36 c := by
  rw [convertD, signedText]
  by_cases hneg : s32 v.toNat < 0
  · have hle := valueText_length_le one_lt_ten (0 - v)
    have h0 := zero_not_mem_valueText one_lt_ten ten_le (0 - v).toNat
    obtain ⟨b, hb, hmem, hstores⟩ :=
      itoa_eq one_lt_ten ten_le (0 - v) 1 (Buf.store 0 45 ⟨uninit, []⟩)
    rw [if_pos hneg, if_pos hneg, hb, ← neg_toNat hneg]
    refine ⟨⟨b, 0⟩, rfl, ?_, ?_⟩
    · simp only [hmem, Buf.store]
      rw [Function.update_comm (by omega), ← place_cons]
      apply textAt_place
      · rw [List.mem_cons, not_or]
        exact ⟨by decide, h0⟩
      · rw [Nat.zero_add, List.length_cons, Nat.add_comm, Function.update_self]
      · simp only [List.length_cons, addressSpace]
        omega
    · intro i hi
      obtain hsign | hin := hstores i hi
      · obtain rfl := List.mem_singleton.mp hsign
        decide
      · omega
  · obtain ⟨b, hb, hleaves⟩ := itoa_leaves one_lt_ten ten_le v uninit
    rw [if_neg hneg, if_neg hneg, hb, nonneg_toNat hneg]
    exact ⟨⟨b, 0⟩, rfl, hleaves⟩

theorem convertX_leaves (v : UInt32) (uninit : Memory UInt8) :
    ∃ c, convertX false v uninit = some c ∧ Leaves (valueText 16 v.toNat) 64 c := by
  obtain ⟨b, hb, hleaves⟩ := itoa_leaves one_lt_sixteen sixteen_le v uninit
  refine ⟨⟨b, 0⟩, ?_, hleaves.text, fun i hi => (hleaves.stores i hi).trans (by decide)⟩
  rw [convertX, hb]
  rfl

def paddedText (v : UInt32) : List UInt8 :=
  List.replicate (8 - (valueText 16 v.toNat).length) 48 ++ valueText 16 v.toNat

theorem hex_length_le (v : UInt32) : (valueText 16 v.toNat).length ≤ 8 :=
  (numeral_length_le_iff (by decide) (by decide)).mpr v.toNat_lt

theorem itoa_hex (v : UInt32) (buf : Nat) (b : Buf) : ∃ b', itoa v buf 16 b = some b' ∧
    b'.mem = place (Function.update b.mem (buf + (valueText 16 v.toNat).length) 0) buf
      (valueText 16 v.toNat) ∧
    StoresIn buf (buf + (valueText 16 v.toNat).length + 1) b b' :=
  itoa_eq one_lt_sixteen sixteen_le v buf b

/-- The numeral stands at the index 8, and the zeros end where it begins. -/
theorem convertX_alternate_leaves (v : UInt32) (uninit : Memory UInt8) :
    ∃ c, convertX true v uninit = some c ∧ Leaves (paddedText v) 64 c := by
  have hle := hex_length_le v
  have h0 := zero_not_mem_valueText (by decide : 1 < 16) (by decide) v.toNat
  obtain ⟨b, hb, hmem, hstores⟩ := itoa_hex v 8 ⟨uninit, []⟩
  have hlen : strlen b.mem 8 = (valueText 16 v.toNat).length := by
    rw [hmem]
    exact strlen_place _ 8 h0 (Function.update_self _ _ _) (by simp only [addressSpace]; omega)
  rw [convertX, if_pos rfl, hb, paddedText]
  generalize valueText 16 v.toNat = l at *
  refine ⟨⟨zeroLoop (8 - l.length) l.length b, l.length⟩, ?_, ?_, ?_⟩
  · rw [← hlen]
    rfl
  · have happend := place_append (Function.update uninit (8 + l.length) 0) l.length
      (List.replicate (8 - l.length) 48) l
    rw [List.length_replicate, Nat.add_sub_cancel' hle] at happend
    simp only [zeroLoop_mem, hmem, happend]
    apply textAt_place
    · rw [List.mem_append, not_or]
      exact ⟨fun hz => absurd (List.eq_of_mem_replicate hz) (by decide), h0⟩
    · rw [List.length_append, List.length_replicate, Nat.sub_add_cancel hle, Nat.add_comm,
        Function.update_self]
    · simp only [List.length_append, List.length_replicate, addressSpace]
      omega
  · intro i hi
    obtain hb | hin := zeroLoop_stores (8 - l.length) l.length b i hi
    · obtain hnone | hin := hstores i hb
      · cases hnone
      · omega
    · omega

theorem zero_not_mem_signedText (v : UInt32) : 0 ∉ signedText v := by
  have h0 := zero_not_mem_valueText (by decide : 1 < 10) (by decide) (s32 v.toNat).natAbs
  rw [signedText]
  split
  · rw [List.mem_cons, not_or]
    exact ⟨by decide, h0⟩
  · exact h0

theorem paddedText_digits (v : UInt32) : ∀ c ∈ paddedText v, ∃ d, d < 16 ∧ c = digitChar d := by
  intro c hc
  obtain hz | hd := List.mem_append.mp hc
  · exact ⟨0, by decide, List.eq_of_mem_replicate hz⟩
  · exact numeral_digits (by decide) v.toNat c hd

theorem zero_not_mem_paddedText (v : UInt32) : 0 ∉ paddedText v := by
  intro hmem
  obtain ⟨d, hd, h0⟩ := paddedText_digits v 0 hmem
  exact digitChar_ne_zero (hd.trans (by decide)) h0.symm

theorem paddedText_length (v : UInt32) : (paddedText v).length = 8 := by
  have hle := hex_length_le v
  rw [paddedText, List.length_append, List.length_replicate]
  omega

theorem evaluate_paddedText (v : UInt32) : evaluate digitValue 16 (paddedText v) = v.toNat :=
  (evaluate_zeros (readable_lookup 0 (by decide)) _ _).trans
    (isNumeral_valueText (by decide) (by decide) v.toNat).value

def Inside (e : Nat × Nat) : Prop := e.1 < e.2

theorem number_stores {text : List UInt8} {size : Nat} {c : Conversion} (h : Leaves text size c)
    (p : Printing) : ∀ e ∈ (p.number size c).stores, e ∈ p.stores ∨ Inside e := by
  intro e he
  obtain hnew | hold := List.mem_append.mp he
  · obtain ⟨i, hi, rfl⟩ := List.mem_map.mp hnew
    exact Or.inr (h.stores i hi)
  · exact Or.inl hold

def Emits (specifier : UInt8) (alternate : Bool) (v : UInt32) (text : List UInt8) : Prop :=
  ∀ call p, call.format p.buf = specifier → call.args p.esp = v →
    ∃ p', formatChar call alternate p = some p' ∧
      p'.out = text.foldl (fun out c => Keyboard.putc c false out) p.out ∧
      p'.esp = p.esp + 1 ∧ ∀ e ∈ p'.stores, e ∈ p.stores ∨ Inside e

theorem puts_text {text : List UInt8} (h0 : 0 ∉ text) (out : Keyboard.State) :
    Keyboard.puts text false out = text.foldl (fun out c => Keyboard.putc c false out) out := by
  have hall : text.takeWhile (· ≠ 0) = text := by
    apply List.takeWhile_eq_self_iff.mpr
    intro c hc
    exact decide_eq_true fun hz => h0 (hz ▸ hc)
  rw [Keyboard.puts, hall]

theorem emits_of_leaves {specifier : UInt8} {text : List UInt8} {size : Nat}
    {convert : UInt32 → Memory UInt8 → Option Conversion} (h0 : 0 ∉ text)
    (hconv : ∀ uninit, ∃ c, convert v uninit = some c ∧ Leaves text size c)
    (hchar : ∀ call p, call.format p.buf = specifier → formatChar call alternate p =
      (convert (call.args p.esp) (call.uninit p.esp)).map fun conv => p.number size conv) :
    Emits specifier alternate v text := by
  intro call p hspec harg
  obtain ⟨c, hc, hleaves⟩ := hconv (call.uninit p.esp)
  refine ⟨p.number size c, ?_, ?_, rfl, number_stores hleaves p⟩
  · rw [hchar call p hspec, harg, hc, Option.map_some]
  · rw [Printing.number, hleaves.text]
    exact puts_text h0 p.out

theorem formatChar_u (h : call.format p.buf = 117) : formatChar call alternate p =
    (convertU (call.args p.esp) (call.uninit p.esp)).map fun conv => p.number 36 conv := by
  simp [formatChar, h]

theorem formatChar_d (h : call.format p.buf = 100) : formatChar call alternate p =
    (convertD (call.args p.esp) (call.uninit p.esp)).map fun conv => p.number 36 conv := by
  simp [formatChar, h]

theorem formatChar_x (h : call.format p.buf = 120) : formatChar call alternate p =
    (convertX alternate (call.args p.esp) (call.uninit p.esp)).map fun conv => p.number 64 conv := by
  simp [formatChar, h]

def Decimal (n : Nat) (text : List UInt8) : Prop := IsNumeral digitChar digitValue 10 n text

def Hexadecimal (n : Nat) (text : List UInt8) : Prop := IsNumeral digitChar digitValue 16 n text

structure NumbersRight (v : UInt32) : Prop where
  unsigned : ∃ text, Decimal v.toNat text ∧ ∀ alternate, Emits 117 alternate v text
  signed : ∃ text, Decimal (s32 v.toNat).natAbs text ∧
    ∀ alternate, Emits 100 alternate v (if s32 v.toNat < 0 then 45 :: text else text)
  hex : ∃ text, Hexadecimal v.toNat text ∧ Emits 120 false v text
  padded : ∃ text, text.length = 8 ∧ (∀ c ∈ text, ∃ d, d < 16 ∧ c = digitChar d) ∧
    evaluate digitValue 16 text = v.toNat ∧ Emits 120 true v text

/-- Every conversion of a number prints the numeral that reads back as the value. -/
theorem numbers_right (v : UInt32) : NumbersRight v where
  unsigned := by
    refine ⟨valueText 10 v.toNat, isNumeral_valueText (by decide) (by decide) _, fun alternate => ?_⟩
    exact emits_of_leaves (zero_not_mem_valueText (by decide) (by decide) _) (convertU_leaves v)
      fun _ _ => formatChar_u
  signed := by
    refine ⟨valueText 10 (s32 v.toNat).natAbs, isNumeral_valueText (by decide) (by decide) _,
      fun alternate => ?_⟩
    exact emits_of_leaves (zero_not_mem_signedText v) (convertD_leaves v) fun _ _ => formatChar_d
  hex := by
    refine ⟨valueText 16 v.toNat, isNumeral_valueText (by decide) (by decide) _, ?_⟩
    exact emits_of_leaves (zero_not_mem_valueText (by decide) (by decide) _) (convertX_leaves v)
      fun _ _ => formatChar_x
  padded := by
    refine ⟨paddedText v, paddedText_length v, paddedText_digits v, evaluate_paddedText v, ?_⟩
    exact emits_of_leaves (zero_not_mem_paddedText v) (convertX_alternate_leaves v)
      fun _ _ => formatChar_x

end RedstoneOS.Printf
