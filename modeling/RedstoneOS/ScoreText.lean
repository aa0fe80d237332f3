import RedstoneOS.Itoa

namespace RedstoneOS.ScoreText

open Lib Library.ByteMemory Library.Numerals Itoa

variable {i score : Int32} {b p : Nat} {buf buf' : Buf}

def digit : List UInt8 := [48, 49, 50, 51, 52, 53, 54, 55, 56, 57, 0]

/-- `none` stands for a character outside of the array. -/
def digitAt (i : Int32) : Option UInt8 := if i < 0 then none else digit[i.toNatClampNeg]?

/-- An `int` has no more than ten digits. -/
def roundBound : Nat := 10

/-- "Move to where representation ends" -/
def endLoop : Nat → Int32 → Nat → Option Nat
  | 0, _, _ => none
  | fuel + 1, shifter, p =>
    if shifter / 10 ≠ 0 then endLoop fuel (shifter / 10) (p + 1) else some (p + 1)

/-- "Move back, inserting digits as u go" -/
def insertLoop : Nat → Int32 → Nat → Buf → Option Buf
  | 0, _, _, _ => none
  | fuel + 1, i, p, buf => do
    let c ← digitAt (i % 10)
    let buf := buf.store (p - 1) c
    if i / 10 ≠ 0 then insertLoop fuel (i / 10) (p - 1) buf else some buf

def insertNumber (i : Int32) (p : Nat) (buf : Buf) : Option Buf := do
  let fin ← endLoop roundBound i p
  insertLoop roundBound i fin (buf.store fin 0)

/-- The least `int` is its own negation, so that its digits are looked up below the array. -/
def convertNumber (i : Int32) (b : Nat) (buf : Buf) : Option Buf :=
  if i < 0 then insertNumber (i * -1) (b + 1) (buf.store b 45) else insertNumber i b buf

def numberStringSize : Nat := 10

def magnitude (i : Int32) : Nat := i.toInt.natAbs

theorem toInt_nonneg (h : ¬ i < 0) : 0 ≤ i.toInt :=
  Int.not_lt.mp fun hlt => h (Int32.lt_iff_toInt_lt.mpr hlt)

theorem toInt_neg_of_lt (h : i < 0) : i.toInt < 0 := Int32.lt_iff_toInt_lt.mp h

theorem magnitude_div (i : Int32) : magnitude (i / 10) = magnitude i / 10 := by
  rw [magnitude, magnitude, Int32.toInt_div_of_ne_right i 10 (by decide), Int.natAbs_tdiv]
  rfl

theorem magnitude_eq_zero (i : Int32) : magnitude i = 0 ↔ i = 0 := by
  rw [magnitude, Int.natAbs_eq_zero, ← Int32.toInt_inj]
  rfl

theorem negated_toInt (hmin : -2 ^ 31 < i.toInt) : (i * -1).toInt = -i.toInt := by
  have hhi := i.toInt_lt
  rw [Int32.toInt_mul, show (-1 : Int32).toInt = -1 from rfl, Int.mul_neg_one]
  exact Int.bmod_eq_of_le (by omega) (by omega)

theorem magnitude_neg (i : Int32) : magnitude (i * -1) = magnitude i := by
  have hlo := i.le_toInt
  by_cases hmin : i.toInt = -2 ^ 31
  · rw [show i = Int32.minValue from Int32.toInt_inj.mp hmin]
    decide
  · rw [magnitude, negated_toInt (by omega), Int.natAbs_neg, magnitude]

theorem magnitude_lt (i : Int32) : magnitude i < 10 ^ 10 := by
  have hlo := i.le_toInt
  have hhi := i.toInt_lt
  rw [magnitude]
  omega

theorem digitAt_eq (hi : 0 ≤ i.toInt) : digitAt (i % 10) = some (digitChar (magnitude i % 10)) := by
  have hall : ∀ d, d < 10 → digit[d]? = some (digitChar d) := by decide
  have hmod : (i % 10).toInt = (magnitude i % 10 : Nat) := by
    rw [Int32.toInt_mod, Int.tmod_eq_emod_of_nonneg hi, magnitude, show (10 : Int32).toInt = 10 from rfl]
    omega
  have hneg : ¬ i % 10 < 0 := by
    rw [Int32.lt_iff_toInt_lt, hmod]
    exact Int.not_lt.mpr (Int.natCast_nonneg _)
  rw [digitAt, if_neg hneg, Int32.toNatClampNeg, hmod, Int.toNat_natCast]
  exact hall _ (Nat.mod_lt _ (by decide))

theorem valueText_length_pos (n : Nat) : 0 < (valueText 10 n).length :=
  List.length_pos_iff.mpr (isNumeral_valueText (by decide) (by decide) n).nonempty

theorem div_ne_zero_iff (i : Int32) : i / 10 ≠ 0 ↔ 10 ≤ magnitude i := by
  rw [ne_eq, ← magnitude_eq_zero, magnitude_div]
  omega

theorem valueText_concat (h : 10 ≤ magnitude i) : valueText 10 (magnitude i) =
    valueText 10 (magnitude (i / 10)) ++ [digitChar (magnitude i % 10)] := by
  rw [magnitude_div]
  exact numeral_concat (by decide) h

theorem valueText_single (h : ¬ 10 ≤ magnitude i) :
    valueText 10 (magnitude i) = [digitChar (magnitude i)] := numeral_of_lt (Nat.not_le.mp h)

theorem endLoop_eq (fuel : Nat) (i : Int32) (p : Nat)
    (hfuel : (valueText 10 (magnitude i)).length ≤ fuel) :
    endLoop fuel i p = some (p + (valueText 10 (magnitude i)).length) := by
  induction fuel generalizing i p with
  | zero => exact absurd (valueText_length_pos (magnitude i)) (by omega)
  | succ fuel ih =>
    rw [endLoop]
    by_cases h : 10 ≤ magnitude i
    · rw [valueText_concat h, List.length_append, List.length_singleton] at hfuel ⊢
      rw [if_pos ((div_ne_zero_iff i).mpr h), ih (i / 10) (p + 1) (Nat.le_of_succ_le_succ hfuel),
        Nat.add_assoc p 1, Nat.add_comm 1]
    · rw [if_neg (fun hne => h ((div_ne_zero_iff i).mp hne)), valueText_single h,
        List.length_singleton]

theorem insertLoop_eq (fuel : Nat) (p : Nat) (buf : Buf) (hi : 0 ≤ i.toInt)
    (hfuel : (valueText 10 (magnitude i)).length ≤ fuel) :
    ∃ buf', insertLoop fuel i (p + (valueText 10 (magnitude i)).length) buf = some buf' ∧
      buf'.mem = place buf.mem p (valueText 10 (magnitude i)) ∧
      StoresIn p (p + (valueText 10 (magnitude i)).length) buf buf' := by
  induction fuel generalizing i buf with
  | zero => exact absurd (valueText_length_pos (magnitude i)) (by omega)
  | succ fuel ih =>
    rw [insertLoop, digitAt_eq hi]
    by_cases h : 10 ≤ magnitude i
    · have hdiv : 0 ≤ (i / 10).toInt := by
        rw [Int32.toInt_div_of_ne_right i 10 (by decide)]
        exact Int.tdiv_nonneg hi (by decide)
      rw [valueText_concat h, List.length_append] at hfuel ⊢
      obtain ⟨buf', hloop, hmem, hstores⟩ := ih
        (buf.store (p + (valueText 10 (magnitude (i / 10))).length) (digitChar (magnitude i % 10)))
        hdiv (Nat.le_of_succ_le_succ hfuel)
      refine ⟨buf', ?_, ?_, ?_⟩
      · simp only [Option.bind_eq_bind, Option.bind_some]
        rw [if_pos ((div_ne_zero_iff i).mpr h)]
        exact hloop
      · rw [hmem, place_concat]
        rfl
      · exact storesIn_trans (storesIn_store (Nat.le_add_right p _) (by simp) _ buf)
          (hstores.mono le_rfl (by simp))
    · rw [valueText_single h, Nat.mod_eq_of_lt (by omega)]
      refine ⟨_, if_neg (fun hne => h ((div_ne_zero_iff i).mp hne)), ?_, ?_⟩
      · rw [place_cons, place_nil]
        rfl
      · exact storesIn_store le_rfl (by simp) _ buf

theorem insertLoop_stores {fuel : Nat} (h : insertLoop fuel i p buf = some buf') :
    ∀ x ∈ buf.stores, x ∈ buf'.stores := by
  induction fuel generalizing i p buf with
  | zero => cases h
  | succ fuel ih =>
    rw [insertLoop] at h
    cases hc : digitAt (i % 10) with
    | none => rw [hc] at h; cases h
    | some c =>
      rw [hc] at h
      simp only [Option.bind_eq_bind, Option.bind_some] at h
      intro x hx
      split at h
      · exact ih h x (List.mem_cons_of_mem _ hx)
      · cases h
        exact List.mem_cons_of_mem _ hx

theorem valueText_length_magnitude (i : Int32) : (valueText 10 (magnitude i)).length ≤ roundBound :=
  (numeral_length_le_iff (by decide) (by decide)).mpr (magnitude_lt i)

theorem insertNumber_eq (p : Nat) (buf : Buf) (hi : 0 ≤ i.toInt) :
    ∃ buf', insertNumber i p buf = some buf' ∧
      buf'.mem = place (Function.update buf.mem (p + (valueText 10 (magnitude i)).length) 0) p
        (valueText 10 (magnitude i)) ∧
      StoresIn p (p + (valueText 10 (magnitude i)).length + 1) buf buf' := by
  have hbound := valueText_length_magnitude i
  obtain ⟨buf', hloop, hmem, hstores⟩ := insertLoop_eq roundBound p
    (buf.store (p + (valueText 10 (magnitude i)).length) 0) hi hbound
  refine ⟨buf', ?_, hmem, ?_⟩
  · rw [insertNumber, endLoop_eq roundBound i p hbound]
    exact hloop
  · exact storesIn_trans (storesIn_store (Nat.le_add_right p _) (Nat.lt_succ_self _) 0 buf)
      (hstores.mono le_rfl (Nat.le_succ _))

theorem insertNumber_nul (h : insertNumber i p buf = some buf') :
    p + (valueText 10 (magnitude i)).length ∈ buf'.stores := by
  rw [insertNumber, endLoop_eq roundBound i p (valueText_length_magnitude i)] at h
  exact insertLoop_stores h _ List.mem_cons_self

def signedText (i : Int32) : List UInt8 :=
  if i < 0 then 45 :: valueText 10 (magnitude i) else valueText 10 (magnitude i)

theorem convertNumber_nul (h : convertNumber i b buf = some buf') :
    b + (signedText i).length ∈ buf'.stores := by
  rw [convertNumber] at h
  rw [signedText]
  split at h
  · next hneg =>
    have hnul := insertNumber_nul h
    rw [magnitude_neg] at hnul
    rwa [if_pos hneg, List.length_cons, Nat.add_comm _ 1, ← Nat.add_assoc]
  · next hneg =>
    rw [if_neg hneg]
    exact insertNumber_nul h

theorem convertNumber_eq (b : Nat) (buf : Buf) (hmin : -2 ^ 31 < i.toInt) :
    ∃ buf', convertNumber i b buf = some buf' ∧
      buf'.mem = place (Function.update buf.mem (b + (signedText i).length) 0) b (signedText i) ∧
      StoresIn b (b + (signedText i).length + 1) buf buf' := by
  rw [convertNumber, signedText]
  by_cases hneg : i < 0
  · have hpos : 0 ≤ (i * -1).toInt := by
      have hlt := toInt_neg_of_lt hneg
      rw [negated_toInt hmin]
      omega
    have hlen : b + ((valueText 10 (magnitude (i * -1))).length + 1) =
        b + 1 + (valueText 10 (magnitude (i * -1))).length := by omega
    rw [if_pos hneg, if_pos hneg, List.length_cons, ← magnitude_neg, hlen]
    obtain ⟨buf', hins, hmem, hstores⟩ := insertNumber_eq (b + 1) (buf.store b 45) hpos
    refine ⟨buf', hins, ?_, ?_⟩
    · rw [hmem, place_cons, Buf.store, Function.update_comm (show b + 1 + _ ≠ b by omega)]
    · exact storesIn_trans (storesIn_store le_rfl (by omega) 45 buf)
        (hstores.mono (Nat.le_succ b) le_rfl)
  · rw [if_neg hneg, if_neg hneg]
    exact insertNumber_eq b buf (toInt_nonneg hneg)

theorem signedText_length (score : Int32) : (signedText score).length < numberStringSize ↔
    -100000000 < score.toInt ∧ score.toInt < 1000000000 := by
  rw [signedText, numberStringSize]
  by_cases hneg : score < 0
  · have hlt := toInt_neg_of_lt hneg
    have hlen : (valueText 10 (magnitude score)).length ≤ 8 ↔ magnitude score < 10 ^ 8 :=
      numeral_length_le_iff (by decide) (by decide)
    rw [if_pos hneg, List.length_cons]
    rw [magnitude] at hlen ⊢
    omega
  · have hge := toInt_nonneg hneg
    have hlen : (valueText 10 (magnitude score)).length ≤ 9 ↔ magnitude score < 10 ^ 9 :=
      numeral_length_le_iff (by decide) (by decide)
    rw [if_neg hneg]
    rw [magnitude] at hlen ⊢
    omega

def readNumber (l : List UInt8) : Int :=
  if l.head? = some 45 then -evaluate digitValue 10 l.tail else evaluate digitValue 10 l

theorem readNumber_signedText (i : Int32) : readNumber (signedText i) = i.toInt := by
  have hvalue := evaluate_numeral (r := 10) (by decide) (readable_lookup.mono (by decide)) (magnitude i)
  have hminus : (valueText 10 (magnitude i)).head? ≠ some 45 := by
    intro hhead
    obtain ⟨d, hd, hc⟩ := numeral_digits (by decide) _ _ (List.mem_of_head? hhead)
    have hall : ∀ d, d < 10 → 45 ≠ digitChar d := by decide
    exact hall d hd hc
  rw [readNumber, signedText]
  by_cases hneg : i < 0
  · have hlt := toInt_neg_of_lt hneg
    rw [if_pos hneg, List.head?_cons, if_pos rfl, List.tail_cons, valueText, hvalue, magnitude]
    omega
  · have hge := toInt_nonneg hneg
    rw [if_neg hneg, if_neg hminus, valueText, hvalue, magnitude]
    omega

theorem zero_not_mem_signedText (i : Int32) : 0 ∉ signedText i := by
  have h0 : 0 ∉ valueText 10 (magnitude i) :=
    zero_not_mem_valueText (by decide) (by decide) (magnitude i)
  rw [signedText]
  split
  · rw [List.mem_cons]
    exact not_or.mpr ⟨by decide, h0⟩
  · exact h0

structure ScoreWritten (score : Int32) (b : Nat) (buf' : Buf) : Prop where
  inside : ∀ x ∈ buf'.stores, b ≤ x ∧ x < b + numberStringSize
  text : ∃ l, IsNumeral digitChar digitValue 10 score.toInt.natAbs l ∧
    textAt buf'.mem b = if score < 0 then 45 :: l else l
  nul : buf'.mem (b + (textAt buf'.mem b).length) = 0
  value : readNumber (textAt buf'.mem b) = score.toInt

theorem scoreWritten_of_short (uninit : Memory UInt8)
    (hlen : (signedText score).length < numberStringSize) :
    ∃ buf', convertNumber score b ⟨uninit, []⟩ = some buf' ∧ ScoreWritten score b buf' := by
  have hrange := (signedText_length score).mp hlen
  obtain ⟨buf', hconvert, hmem, hstores⟩ := convertNumber_eq (i := score) b ⟨uninit, []⟩ (by omega)
  have htext : textAt buf'.mem b = signedText score := by
    rw [hmem]
    apply textAt_place _ b (zero_not_mem_signedText score) (Function.update_self _ _ _)
    simp only [numberStringSize, addressSpace] at hlen ⊢
    omega
  refine ⟨buf', hconvert, ?_, ?_, ?_, ?_⟩
  · intro x hx
    obtain hnil | hin := hstores x hx
    · cases hnil
    · exact ⟨hin.1, by omega⟩
  · exact ⟨valueText 10 (magnitude score), isNumeral_valueText (by decide) (by decide) _, htext⟩
  · rw [htext, hmem, place_outside _ _ (by omega), Function.update_self]
  · rw [htext, readNumber_signedText]

/-- A score of ten digits, or of nine digits behind a '-', leaves no room for the NUL. -/
theorem score_written_iff (score : Int32) (b : Nat) (uninit : Memory UInt8) :
    (∃ buf', convertNumber score b ⟨uninit, []⟩ = some buf' ∧ ScoreWritten score b buf') ↔
      -100000000 < score.toInt ∧ score.toInt < 1000000000 := by
  rw [← signedText_length]
  constructor
  · intro ⟨buf', hconvert, hwritten⟩
    have hnul := (hwritten.inside _ (convertNumber_nul hconvert)).2
    omega
  · exact scoreWritten_of_short uninit

theorem billion_overflows : ¬ ∀ (score : Int32) (b : Nat) (uninit : Memory UInt8),
    ∃ buf', convertNumber score b ⟨uninit, []⟩ = some buf' ∧ ScoreWritten score b buf' := by
  intro h
  have hrun : (convertNumber 1000000000 0 ⟨fun _ => 0, []⟩).map Buf.stores =
      some [0, 1, 2, 3, 4, 5, 6, 7, 8, 9, 10] := by decide
  obtain ⟨buf', hconvert, hwritten⟩ := h 1000000000 0 fun _ => 0
  rw [hconvert, Option.map_some, Option.some.injEq] at hrun
  have hnul := hwritten.inside 10 (by rw [hrun]; decide)
  exact absurd hnul.2 (by decide)

end RedstoneOS.ScoreText
