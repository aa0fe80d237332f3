import RedstoneOS.Lib
import RedstoneOS.Library.Numerals
import Mathlib.Data.List.Infix

namespace RedstoneOS.Itoa

open Lib Library.ByteMemory Library.Numerals

/-- The array that a number is converted in, with the indexes of all stores so far. -/
structure Buf where
  mem : Memory UInt8
  stores : List Nat

variable {b b' : Buf} {radix : UInt32} {s lo hi : Nat} {l : List UInt8}

def Buf.store (i : Nat) (c : UInt8) (b : Buf) : Buf := ⟨Function.update b.mem i c, i :: b.stores⟩

def lookup : List UInt8 :=
  [48, 49, 50, 51, 52, 53, 54, 55, 56, 57, 65, 66, 67, 68, 69, 70, 71, 72, 73, 74, 75, 76, 77, 78,
    79, 80, 81, 82, 83, 84, 85, 86, 87, 88, 89, 90]

def digitChar (i : Nat) : UInt8 := lookup.getD i 0

def digitValue (c : UInt8) : Nat := lookup.idxOf c

/-- The division loop, with the pointer behind the last digit. `none` stands for a loop
that has not ended within the bound. -/
def digitLoop (radix : UInt32) : Nat → UInt32 → Nat → Buf → Option (Nat × Buf)
  | 0, _, _, _ => none
  | fuel + 1, newval, newbuf, b =>
    if 0 < newval then
      digitLoop radix fuel (newval / radix) (newbuf + 1)
        (b.store newbuf (digitChar (newval % radix).toNat))
    else some (newbuf, b)

def strrevLoop (s : Nat) : Nat → Int → Int → Buf → Buf
  | 0, _, _, b => b
  | fuel + 1, beg, fin, b =>
    if beg < fin then
      let tmp := b.mem (s + fin.toNat)
      let b := b.store (s + fin.toNat) (b.mem (s + beg.toNat))
      strrevLoop s fuel (beg + 1) (fin - 1) (b.store (s + beg.toNat) tmp)
    else b

def strrev (s : Nat) (b : Buf) : Buf :=
  strrevLoop s (strlen b.mem s) 0 ((strlen b.mem s : Int) - 1) b

/-- A radix of 2 or more leaves no more than 32 digits. -/
def digitBound : Nat := 33

def itoa (value : UInt32) (buf : Nat) (radix : UInt32) (b : Buf) : Option Buf :=
  if value = 0 then some ((b.store buf 48).store (buf + 1) 0)
  else do
    let (newbuf, b) ← digitLoop radix digitBound value buf b
    some (strrev buf (b.store newbuf 0))

theorem readable_lookup : Readable digitChar digitValue 36 := by
  unfold Readable
  decide

theorem digitChar_ne_zero {d : Nat} (h : d < 36) : digitChar d ≠ 0 := by
  have hall : ∀ d, d < 36 → digitChar d ≠ 0 := by decide
  exact hall d h

def StoresIn (lo hi : Nat) (b b' : Buf) : Prop :=
  ∀ i ∈ b'.stores, i ∈ b.stores ∨ lo ≤ i ∧ i < hi

theorem storesIn_refl (lo hi : Nat) (b : Buf) : StoresIn lo hi b b := fun _ hi => Or.inl hi

theorem storesIn_trans {b'' : Buf} (h : StoresIn lo hi b b') (h' : StoresIn lo hi b' b'') :
    StoresIn lo hi b b'' := by
  intro i hi
  obtain hb | hin := h' i hi
  · exact h i hb
  · exact Or.inr hin

theorem storesIn_store (hlo : lo ≤ s) (hhi : s < hi) (c : UInt8) (b : Buf) :
    StoresIn lo hi b (b.store s c) := by
  intro i hi
  obtain rfl | hb := List.mem_cons.mp hi
  · exact Or.inr ⟨hlo, hhi⟩
  · exact Or.inl hb

theorem StoresIn.mono {lo' hi' : Nat} (h : StoresIn lo hi b b') (hlo : lo' ≤ lo) (hhi : hi ≤ hi') :
    StoresIn lo' hi' b b' := by
  intro i hi
  obtain hb | hin := h i hi
  · exact Or.inl hb
  · exact Or.inr ⟨hlo.trans hin.1, Nat.lt_of_lt_of_le hin.2 hhi⟩

theorem digitLoop_eq (hr : 1 < radix.toNat) (fuel : Nat) (newval : UInt32) (newbuf : Nat) (b : Buf)
    (hfuel : (Nat.digits radix.toNat newval.toNat).length < fuel) :
    ∃ b', digitLoop radix fuel newval newbuf b =
        some (newbuf + (Nat.digits radix.toNat newval.toNat).length, b') ∧
      b'.mem = place b.mem newbuf ((Nat.digits radix.toNat newval.toNat).map digitChar) ∧
      StoresIn newbuf (newbuf + (Nat.digits radix.toNat newval.toNat).length) b b' := by
  induction fuel generalizing newval newbuf b with
  | zero => omega
  | succ fuel ih =>
    rw [digitLoop]
    by_cases hpos : 0 < newval
    · have hdigits : Nat.digits radix.toNat newval.toNat =
          (newval % radix).toNat :: Nat.digits radix.toNat (newval / radix).toNat := by
        rw [UInt32.toNat_mod, UInt32.toNat_div]
        exact Nat.digits_def' hr (UInt32.lt_iff_toNat_lt.mp hpos)
      rw [hdigits, List.length_cons] at hfuel ⊢
      obtain ⟨b', hloop, hmem, hstores⟩ := ih (newval / radix) (newbuf + 1)
        (b.store newbuf (digitChar (newval % radix).toNat)) (by omega)
      refine ⟨b', ?_, ?_, ?_⟩
      · rw [if_pos hpos, hloop, Nat.add_assoc, Nat.add_comm 1]
      · rw [hmem, List.map_cons, place_cons]
        rfl
      · exact storesIn_trans (storesIn_store le_rfl (by omega) _ b)
          (hstores.mono (Nat.le_succ newbuf) (by omega))
    · have h0 : newval = 0 := by
        apply UInt32.toNat_inj.mp
        have hle := UInt32.lt_iff_toNat_lt.not.mp hpos
        simpa using hle
      rw [if_neg hpos, h0]
      exact ⟨b, by simp, by simp, storesIn_refl _ _ b⟩

def Buf.swap (i j : Nat) (b : Buf) : Buf := (b.store j (b.mem i)).store i (b.mem j)

theorem strrevLoop_round (s fuel : Nat) {beg fin : Nat} (b : Buf) (h : beg + 1 < fin) :
    strrevLoop s (fuel + 1) beg ((fin : Int) - 1) b =
      strrevLoop s fuel (beg + 1 : Nat) (((fin - 1 : Nat) : Int) - 1)
        (b.swap (s + beg) (s + (fin - 1))) := by
  have hfin : ((fin : Int) - 1).toNat = fin - 1 := by omega
  have hsub : (fin : Int) - 1 - 1 = ((fin - 1 : Nat) : Int) - 1 := by omega
  rw [strrevLoop, if_pos (by omega), hfin, hsub, Int.toNat_natCast, Nat.cast_succ]
  rfl

theorem strrevLoop_done (s fuel : Nat) {beg fin : Nat} (b : Buf) (h : fin ≤ beg + 1) :
    strrevLoop s fuel beg ((fin : Int) - 1) b = b := by
  cases fuel with
  | zero => rfl
  | succ fuel => rw [strrevLoop, if_neg (by omega)]

theorem strrevLoop_mem (s : Nat) {fuel beg fin : Nat} (b : Buf) (hfuel : fin ≤ beg + fuel) (x : Nat) :
    (strrevLoop s fuel beg ((fin : Int) - 1) b).mem x =
      if s + beg ≤ x ∧ x < s + fin then b.mem (s + s + beg + fin - 1 - x) else b.mem x := by
  induction fuel generalizing beg fin b with
  | zero => rw [strrevLoop, if_neg (by omega)]
  | succ fuel ih =>
    by_cases hlt : beg + 1 < fin
    · rw [strrevLoop_round s fuel b hlt, ih _ (by omega)]
      simp only [Buf.swap, Buf.store]
      -- the pair of this round, then the range that it encloses
      by_cases hb : x = s + beg
      · subst hb
        rw [if_neg (by omega), if_pos (by omega), Function.update_self]
        congr 1
        omega
      · by_cases hf : x = s + (fin - 1)
        · subst hf
          rw [if_neg (by omega), if_pos (by omega), Function.update_of_ne hb, Function.update_self]
          congr 1
          omega
        · by_cases hin : s + beg ≤ x ∧ x < s + fin
          · rw [if_pos (by omega), if_pos hin, Function.update_of_ne (by omega),
              Function.update_of_ne (by omega)]
            congr 1
            omega
          · rw [if_neg (by omega), if_neg hin, Function.update_of_ne hb, Function.update_of_ne hf]
    · rw [strrevLoop_done s _ b (by omega)]
      split
      · congr 1
        omega
      · rfl

theorem strrevLoop_stores (s fuel beg fin : Nat) (b : Buf) :
    StoresIn (s + beg) (s + fin) b (strrevLoop s fuel beg ((fin : Int) - 1) b) := by
  induction fuel generalizing beg fin b with
  | zero => exact storesIn_refl _ _ b
  | succ fuel ih =>
    by_cases hlt : beg + 1 < fin
    · rw [strrevLoop_round s fuel b hlt]
      apply storesIn_trans (storesIn_store (s := s + (fin - 1)) (by omega) (by omega) _ b)
      apply storesIn_trans (storesIn_store (s := s + beg) (by omega) (by omega) _ _)
      exact (ih (beg + 1) (fin - 1) _).mono (by omega) (by omega)
    · rw [strrevLoop_done s _ b (by omega)]
      exact storesIn_refl _ _ b

/-- The indexes meet within the bound, so that more rounds would change nothing. -/
theorem strrevLoop_fuel (s : Nat) {fuel beg fin : Nat} (k : Nat) (b : Buf)
    (hfuel : fin ≤ beg + fuel) :
    strrevLoop s (fuel + k) beg ((fin : Int) - 1) b = strrevLoop s fuel beg ((fin : Int) - 1) b := by
  induction fuel generalizing beg fin b with
  | zero => rw [strrevLoop_done s _ b (by omega), strrevLoop_done s _ b (by omega)]
  | succ fuel ih =>
    by_cases hlt : beg + 1 < fin
    · rw [Nat.succ_add, strrevLoop_round s _ b hlt, strrevLoop_round s _ b hlt]
      exact ih _ (by omega)
    · rw [strrevLoop_done s _ b (by omega), strrevLoop_done s _ b (by omega)]

theorem strlen_place (m : Mem) (s : Nat) {l : List UInt8} (h0 : 0 ∉ l)
    (hend : m (s + l.length) = 0) (hlen : l.length ≤ addressSpace) :
    strlen (place m s l) s = l.length := by
  apply strlenFrom_eq _ s (Nat.zero_le _) (by omega)
  · intro j _ hj
    rw [place_inside m s hj]
    intro he
    exact h0 (he ▸ List.getElem_mem hj)
  · right
    rw [place_outside m s (by omega)]
    exact hend

theorem strrev_place (m : Mem) (s : Nat) {l : List UInt8} (h0 : 0 ∉ l)
    (hend : m (s + l.length) = 0) (hlen : l.length ≤ addressSpace) (hb : b.mem = place m s l) :
    (strrev s b).mem = place m s l.reverse ∧ StoresIn s (s + l.length) b (strrev s b) := by
  have hstrlen : strlen b.mem s = l.length := by
    rw [hb]
    exact strlen_place m s h0 hend hlen
  rw [strrev, hstrlen]
  constructor
  · funext x
    rw [show (0 : Int) = ((0 : Nat) : Int) from rfl, strrevLoop_mem s b (by omega), hb]
    by_cases hx : s + 0 ≤ x ∧ x < s + l.length
    · obtain ⟨i, rfl⟩ := Nat.exists_eq_add_of_le (show s ≤ x by omega)
      have hi : i < l.length := by omega
      rw [if_pos hx, place_inside m s (l := l.reverse) (by rwa [List.length_reverse]),
        List.getElem_reverse, show s + s + 0 + l.length - 1 - (s + i) = s + (l.length - 1 - i) by omega]
      exact place_inside m s (by omega)
    · rw [if_neg hx, place_outside m s (by omega), place_outside m s (by simp; omega)]
  · have hstores := strrevLoop_stores s l.length 0 l.length b
    simpa using hstores

def textAt (m : Mem) (s : Nat) : List UInt8 := readBytes m s (strlen m s)

theorem textAt_place (m : Mem) (s : Nat) {l : List UInt8} (h0 : 0 ∉ l)
    (hend : m (s + l.length) = 0) (hlen : l.length ≤ addressSpace) : textAt (place m s l) s = l := by
  rw [textAt, strlen_place m s h0 hend hlen, readBytes_place]

def valueText (radix value : Nat) : List UInt8 := numeral digitChar radix value

theorem zero_not_mem_valueText {radix : Nat} (hr : 1 < radix) (hmax : radix ≤ 36) (n : Nat) :
    0 ∉ valueText radix n := by
  intro hmem
  obtain ⟨d, hd, h0⟩ := numeral_digits hr n 0 hmem
  exact digitChar_ne_zero (Nat.lt_of_lt_of_le hd hmax) h0.symm

theorem isNumeral_valueText {radix : Nat} (hr : 1 < radix) (hmax : radix ≤ 36) (n : Nat) :
    IsNumeral digitChar digitValue radix n (valueText radix n) :=
  isNumeral_numeral hr (readable_lookup.mono hmax) n

theorem valueText_length_le {radix : Nat} (hr : 1 < radix) (v : UInt32) :
    (valueText radix v.toNat).length ≤ 32 := by
  apply (numeral_length_le_iff hr (by decide)).mpr
  exact Nat.lt_of_lt_of_le v.toNat_lt (Nat.pow_le_pow_left hr 32)

/-- The numeral and its NUL stand in the buffer, and nothing else has been stored. -/
theorem itoa_eq (hr : 1 < radix.toNat) (hmax : radix.toNat ≤ 36) (value : UInt32) (buf : Nat)
    (b : Buf) : ∃ b', itoa value buf radix b = some b' ∧
      b'.mem = place (Function.update b.mem (buf + (valueText radix.toNat value.toNat).length) 0) buf
        (valueText radix.toNat value.toNat) ∧
      StoresIn buf (buf + (valueText radix.toNat value.toNat).length + 1) b b' := by
  rw [itoa]
  by_cases hv : value = 0
  · subst hv
    have htext : valueText radix.toNat (0 : UInt32).toNat = [48] := by
      rw [valueText, numeral, if_pos UInt32.toNat_zero]
      rfl
    rw [if_pos rfl, htext]
    refine ⟨_, rfl, ?_, ?_⟩
    · rw [place_cons, place_nil]
      exact Function.update_comm (by simp) _ _ _
    · exact storesIn_trans (storesIn_store le_rfl (by simp) 48 b)
        (storesIn_store (by omega) (by simp) 0 _)
  · have hn : value.toNat ≠ 0 := fun h => hv (UInt32.toNat_inj.mp h)
    have hrev : valueText radix.toNat value.toNat =
        ((Nat.digits radix.toNat value.toNat).map digitChar).reverse := numeral_pos hn
    have hlen : (valueText radix.toNat value.toNat).length =
        (Nat.digits radix.toNat value.toNat).length := numeral_length hn
    have hle := valueText_length_le hr value
    have h0 := zero_not_mem_valueText hr hmax value.toNat
    obtain ⟨b', hloop, hmem, hstores⟩ :=
      digitLoop_eq hr digitBound value buf b (by simp only [digitBound]; omega)
    rw [if_neg hv, hloop]
    have hplaced : (b'.store (buf + (Nat.digits radix.toNat value.toNat).length) 0).mem =
        place (Function.update b.mem (buf + (Nat.digits radix.toNat value.toNat).length) 0) buf
          ((Nat.digits radix.toNat value.toNat).map digitChar) := by
      rw [Buf.store, hmem]
      exact place_update b.mem 0 (by simp)
    obtain ⟨hrevmem, hrevstores⟩ := strrev_place _ buf (by rw [hrev, List.mem_reverse] at h0; exact h0)
      (by rw [List.length_map, Function.update_self]) (by simp [addressSpace]; omega) hplaced
    refine ⟨_, rfl, ?_, ?_⟩
    · rw [hrevmem, hlen, hrev]
    · rw [List.length_map] at hrevstores
      have hnul := storesIn_store (Nat.le_add_right buf _)
        (Nat.lt_succ_self (buf + (Nat.digits radix.toNat value.toNat).length)) 0 b'
      rw [hlen]
      exact storesIn_trans (storesIn_trans (hstores.mono le_rfl (Nat.le_succ _)) hnul)
        (hrevstores.mono le_rfl (Nat.le_succ _))

end RedstoneOS.Itoa
